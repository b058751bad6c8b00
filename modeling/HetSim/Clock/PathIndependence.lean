import HetSim.Clock.Domains

/-!
# Clocks do not depend on who asked when

Catching up twice is catching up once, so clocked objects are lazily caught up state: what they
report depends on the changes of the period alone.
-/

namespace HetSim.Clock
open Lazy SrcClockDomain

universe u
variable {O : Type u} {p : ℕ+} {c : Clocked O} {t t' : ℕ}

variable {m tick : ℕ} {x : ℕ+ × Clocked O} {P : ℕ+}

theorem divCeil_le_iff {a : ℕ} : divCeil a p ≤ m ↔ a ≤ p * m := by
  rw [divCeil, ← Nat.ceilDiv_eq_add_pred_div]
  exact ceilDiv_le_iff_le_mul p.pos

def behind (p : ℕ+) (t tick : ℕ) : ℕ := divCeil (t - tick) p

theorem behind_le_iff : behind p t tick ≤ m ↔ t ≤ tick + m * p := by
  rw [behind, divCeil_le_iff, Nat.sub_le_iff_le_add', mul_comm]

theorem behind_succ (h : tick < t) : behind p t tick = behind p t (tick + p) + 1 := by
  refine eq_of_forall_ge_iff fun m => ?_
  cases m with
  | zero =>
    rw [behind_le_iff]
    omega
  | succ m =>
    rw [behind_le_iff, Nat.succ_le_succ_iff, behind_le_iff, Nat.succ_mul]
    omega

theorem update_eq : c.update p t =
    { c with tick := c.tick + behind p t c.tick * p, cycle := c.cycle + behind p t c.tick } := by
  by_cases h : t ≤ c.tick
  · have hzero : behind p t c.tick = 0 := by
      rw [← Nat.le_zero, behind_le_iff]
      omega
    rw [Clocked.update, if_pos h, hzero, Nat.zero_mul]
    rfl
  · rw [behind_succ (not_le.mp h), Clocked.update, if_neg h]
    dsimp only
    split_ifs with h'
    · have hzero : behind p t (c.tick + p) = 0 := by
        rw [← Nat.le_zero, behind_le_iff]
        omega
      rw [hzero, Nat.zero_add, Nat.one_mul]
    · rw [behind, Clocked.mk.injEq]
      refine ⟨rfl, ?_, ?_⟩
      · ring
      · ring

theorem update_name : (c.update p t).name = c.name := by rw [update_eq]

theorem update_least : t ≤ (c.update p t).tick ∧
    ∃ k, (c.update p t).tick = c.tick + k * p ∧ (c.update p t).cycle = c.cycle + k ∧
      ∀ j : ℕ, t ≤ c.tick + j * p → (c.update p t).tick ≤ c.tick + j * p := by
  rw [update_eq]
  refine ⟨behind_le_iff.mp le_rfl, behind p t c.tick, rfl, rfl, fun j hj => ?_⟩
  exact Nat.add_le_add_left (Nat.mul_le_mul_right _ (behind_le_iff.mpr hj)) _

theorem update_update (h : t ≤ t') : (c.update p t).update p t' = c.update p t' := by
  have hsum : behind p t c.tick + behind p t' (c.tick + behind p t c.tick * p) =
      behind p t' c.tick := by
    refine eq_of_forall_ge_iff fun m => ?_
    rw [behind_le_iff]
    constructor
    · intro hm
      have hk : behind p t' (c.tick + behind p t c.tick * p) ≤ m - behind p t c.tick := by omega
      rw [behind_le_iff, add_assoc, ← Nat.add_mul, Nat.add_sub_of_le (by omega)] at hk
      exact hk
    · intro hm
      have hle : behind p t c.tick ≤ m := behind_le_iff.mpr (h.trans hm)
      have hk : behind p t' (c.tick + behind p t c.tick * p) ≤ m - behind p t c.tick := by
        rw [behind_le_iff, add_assoc, ← Nat.add_mul, Nat.add_sub_of_le hle]
        exact hm
      omega
  simp only [update_eq, Clocked.mk.injEq, true_and]
  constructor
  · rw [add_assoc, ← Nat.add_mul, hsum]
  · rw [add_assoc, hsum]

/-! ## Trees of domains -/

section Domains

variable {f g : ℕ+ → Clocked O → Clocked O} {d : SrcClockDomain O}

theorem derived_mapMembers (ds : DerivedClockDomains O) :
    (ds.mapMembers f).mapMembers g = ds.mapMembers (fun p c => g p (f p c)) := by
  induction ds with
  | nil => rfl
  | cons clockDivider clockPeriod members children rest ihc ihr =>
    simp [DerivedClockDomains.mapMembers, ihc, ihr]

theorem mapMembers_mapMembers :
    (d.mapMembers f).mapMembers g = d.mapMembers (fun p c => g p (f p c)) := by
  simp [mapMembers, derived_mapMembers]

def sync (t : ℕ) (d : SrcClockDomain O) : SrcClockDomain O := d.mapMembers fun p c => c.update p t

theorem updateClockPeriod_sync (parent : ℕ+) (ds : DerivedClockDomains O) :
    (ds.mapMembers fun p c => c.update p t).updateClockPeriod t parent =
      ds.updateClockPeriod t parent := by
  induction ds generalizing parent with
  | nil => rfl
  | cons clockDivider clockPeriod members children rest ihc ihr =>
    simp [DerivedClockDomains.mapMembers, DerivedClockDomains.updateClockPeriod, ihc, ihr,
      Function.comp_def, update_update le_rfl]

theorem setClockPeriod_sync (p : ℕ+) : (sync t d).setClockPeriod p t = d.setClockPeriod p t := by
  simp [sync, mapMembers, setClockPeriod, updateClockPeriod_sync,
    Function.comp_def, update_update le_rfl]

variable [DecidableEq O] {name : O}

theorem sync_ask (h : t' ≤ t) : sync t (d.ask name t') = sync t d := by
  rw [sync, ask, mapMembers_mapMembers, sync]
  congr 1
  funext p c
  split_ifs
  · exact update_update h
  · rfl

theorem catches : Catches sync (fun (name : O) t d => d.ask name t)
    (fun p t d => d.setClockPeriod p t) :=
  ⟨fun _ _ _ _ h => sync_ask h, fun p _ _ => setClockPeriod_sync p⟩

theorem findMember_map (hname : ∀ p c, (f p c).name = c.name) (members : List (Clocked O)) :
    findMember name p (members.map (f p)) =
      (findMember name p members).map fun x => (x.1, f x.1 x.2) := by
  rw [findMember, findMember, List.find?_map, Option.map_map, Option.map_map]
  simp only [Function.comp_def, hname]

theorem derived_find (hname : ∀ p c, (f p c).name = c.name) (ds : DerivedClockDomains O) :
    (ds.mapMembers f).find name = (ds.find name).map fun x => (x.1, f x.1 x.2) := by
  induction ds with
  | nil => rfl
  | cons clockDivider clockPeriod members children rest ihc ihr =>
    rw [DerivedClockDomains.mapMembers, DerivedClockDomains.find, DerivedClockDomains.find,
      findMember_map hname, ihc, ihr]
    cases findMember name clockPeriod members <;> cases children.find name <;> rfl

theorem find_mapMembers (hname : ∀ p c, (f p c).name = c.name) :
    (d.mapMembers f).find name = (d.find name).map fun x => (x.1, f x.1 x.2) := by
  rw [find, find, mapMembers, findMember_map hname,
    derived_find hname]
  cases findMember name d.clockPeriod d.members <;> rfl

theorem findMember_name {members : List (Clocked O)}
    (h : findMember name p members = some x) : x.2.name = name := by
  obtain ⟨c, hc, rfl⟩ := Option.map_eq_some_iff.mp h
  simpa using List.find?_some hc

theorem derived_name (ds : DerivedClockDomains O)
    (h : ds.find name = some x) : x.2.name = name := by
  induction ds with
  | nil => exact nomatch h
  | cons clockDivider clockPeriod members children rest ihc ihr =>
    rw [DerivedClockDomains.find] at h
    rcases (Option.orElse_eq_some ..).mp h with h | ⟨-, h⟩
    · exact findMember_name h
    rcases (Option.orElse_eq_some ..).mp h with h | ⟨-, h⟩
    · exact ihc h
    · exact ihr h

theorem find_name (h : d.find name = some x) : x.2.name = name := by
  rcases (Option.orElse_eq_some ..).mp h with h | ⟨-, h⟩
  · exact findMember_name h
  · exact derived_name d.children h

theorem find_ask : (d.ask name t).find name = (sync t d).find name := by
  rw [ask, sync, find_mapMembers (fun _ _ => update_name), find_mapMembers]
  · refine Option.map_congr fun x hx => ?_
    rw [if_pos (find_name hx)]
  · intro p c
    split_ifs
    · exact update_name
    · rfl

theorem find_sync (h : d.find name = some (P, c)) :
    (sync t d).find name = some (P, c.update P t) := by
  rw [sync, find_mapMembers (fun _ _ => update_name), h]
  rfl

def run (d : SrcClockDomain O) (calls : List (ℕ × Call O ℕ+)) : SrcClockDomain O :=
  Lazy.run (fun name t d => d.ask name t) (fun p t d => d.setClockPeriod p t) d calls

theorem find_run {calls : List (ℕ × Call O ℕ+)} (hcalls : Timed calls t)
    (hnone : changes calls = []) (h : d.find name = some (P, c)) :
    ((run d calls).ask name t).find name = some (P, c.update P t) := by
  have hsync : sync t (run d calls) = sync t d := by
    rw [run, sync_run catches d hcalls, hnone]
    rfl
  rw [find_ask, hsync, find_sync h]

theorem clocks_path_independent (d : SrcClockDomain O) :
    (∀ (calls calls' : List (ℕ × Call O ℕ+)) (t : ℕ), Timed calls t → Timed calls' t →
      changes calls = changes calls' → ∀ name n,
        (run d calls).clockEdge name t n = (run d calls').clockEdge name t n ∧
        (run d calls).curCycle name t = (run d calls').curCycle name t) ∧
    (∀ (before after : List (ℕ × Call O ℕ+)) (t : ℕ) (P : ℕ+) (name : O) (c : Clocked O),
      Timed (before ++ after) t → changes after = [] → (run d before).find name = some (P, c) →
      ∃ c', ((run d (before ++ after)).ask name t).find name = some (P, c') ∧ t ≤ c'.tick ∧
        ∃ k : ℕ, c'.tick = c.tick + k * P ∧
          ∀ j : ℕ, t ≤ c.tick + j * P → c'.tick ≤ c.tick + j * P) ∧
    ∀ (calls : List (ℕ × Call O ℕ+)) (t : ℕ) (P : ℕ+) (name : O) (c : Clocked O), Timed calls t →
      changes calls = [] → d.find name = some (P, c) → c.tick = 0 → c.cycle = 0 →
      (∀ n, (run d calls).clockEdge name t n = some (P * (t ⌈/⌉ (P : ℕ)) + n * P)) ∧
      (run d calls).curCycle name t = some (t ⌈/⌉ (P : ℕ)) := by
  refine ⟨fun calls calls' t h h' hsame name n => ?_,
    fun before after t P name c h hnone hfind => ?_,
    fun calls t P name c h hnone hfind htick hcycle => ?_⟩
  · have hsync : sync t (run d calls) = sync t (run d calls') := sync_run_eq catches d h h' hsame
    simp only [clockEdge, curCycle, find_ask, hsync, and_self]
  · have hrun : run d (before ++ after) = run (run d before) after := by
      rw [run, Lazy.run, List.foldl_append]
      rfl
    obtain ⟨hle, k, hk, -, hleast⟩ := update_least (c := c) (p := P) (t := t)
    exact ⟨c.update P t, by rw [hrun, find_run h.of_append_right hnone hfind], hle, k, hk, hleast⟩
  · have hfound := find_run h hnone hfind
    have hbehind : behind P t c.tick = t ⌈/⌉ (P : ℕ) := by
      rw [htick, behind, divCeil, Nat.sub_zero, Nat.ceilDiv_eq_add_pred_div]
    rw [update_eq, hbehind, htick, hcycle, Nat.zero_add, Nat.zero_add] at hfound
    refine ⟨fun n => ?_, ?_⟩
    · rw [clockEdge, hfound, Option.map_some, Nat.mul_comm (t ⌈/⌉ _), Nat.mul_comm n]
    · rw [curCycle, hfound, Option.map_some]

end Domains

def twoDomains : SrcClockDomain Bool :=
  ⟨10, [⟨true, 0, 0⟩], .cons 2 20 [⟨false, 0, 0⟩] .nil .nil⟩

theorem clocks_path_independent_divider :
    let asked := [(7, .touch false), (30, .change 5), (33, .touch true), (41, .touch false)]
    (run twoDomains asked).clockEdge false 52 1 =
        (run twoDomains [(30, .change 5)]).clockEdge false 52 1 ∧
      (run twoDomains asked).curCycle false 52 =
        (run twoDomains [(30, .change 5)]).curCycle false 52 :=
  (clocks_path_independent twoDomains).1 _ _ 52 ⟨by decide, by decide⟩ ⟨by decide, by decide⟩ rfl
    false 1

example : (run twoDomains [(30, .change 5)]).clockEdge false 52 1 = some 70 := by decide

end HetSim.Clock
