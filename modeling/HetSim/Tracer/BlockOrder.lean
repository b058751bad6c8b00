import HetSim.Tracer.Pass

/-!
# The trace of a basic block

An instrumented block never loses a stall cycle, but can write cycles later than the program takes
them: those counted in front of an access are handed over after the access, and an intrinsic does
not flush what is pending.
-/

namespace HetSim.Tracer
open Checked List Instr

variable {cfg : Setup} {r : Runtime}

def effects (cfg : Setup) (pending : Int32) : List Call → List Item × Int32
  | [] => ([], pending)
  | c :: calls =>
    ((c.effect cfg pending).1 ++ (effects cfg (c.effect cfg pending).2 calls).1,
      (effects cfg (c.effect cfg pending).2 calls).2)

def FitAll (cfg : Setup) (pending : Int32) : List Call → Prop
  | [] => True
  | c :: calls => c.Fits pending ∧ FitAll cfg (c.effect cfg pending).2 calls

theorem run_effects (hone : cfg.OneType) {calls : List Call} (hl : Live cfg r)
    (hfit : FitAll cfg r.stalls calls) :
    Runs.run (call cfg) r calls =
      .ok (r.write cfg.id (effects cfg r.stalls calls).1 (effects cfg r.stalls calls).2) := by
  induction calls generalizing r with
  | nil => exact congrArg Except.ok hl.write_nil.symm
  | cons c calls ih =>
    rw [Runs.run_cons, call_eq hl hone, if_pos hfit.1, ok_bind, ih (hl.write _ _) hfit.2,
      write_write]
    rfl

theorem effects_append (p : Int32) (l l' : List Call) :
    effects cfg p (l ++ l') = ((effects cfg p l).1 ++ (effects cfg (effects cfg p l).2 l').1,
      (effects cfg (effects cfg p l).2 l').2) := by
  induction l generalizing p with
  | nil => rfl
  | cons c l ih => simp only [cons_append, effects, ih, append_assoc]

theorem fitAll_append (p : Int32) (l l' : List Call) :
    FitAll cfg p (l ++ l') ↔ FitAll cfg p l ∧ FitAll cfg (effects cfg p l).2 l' := by
  induction l generalizing p with
  | nil => simp [FitAll, effects]
  | cons c l ih => simp only [cons_append, FitAll, effects, ih, and_assoc]

def stampsFrom (n : ℤ) : List Item → List (ℤ × Item)
  | [] => []
  | .stall k _ :: l => stampsFrom (n + k.toNat) l
  | e :: l => (n, e) :: stampsFrom n l

def Instr.entries (cfg : Setup) (m : Int32) : Instr → List Item
  | .load ptr deps =>
    if shouldTranslate cfg.addrSpaces ptr then
      [.load ptr (collectDeps (numDeps deps) (dep deps 0) (dep deps 1) (dep deps 2)) m] else []
  | .store ptr value deps =>
    if shouldTranslate cfg.addrSpaces ptr then
      [.store ptr value (collectDeps (numDeps deps) (dep deps 0) (dep deps 1) (dep deps 2)) m]
        else []
  | .call (some (f, args)) => f.items args
  | _ => []

def Instr.weight : Instr → ℕ
  | .traced _ => 1
  | _ => 0

def weight (instrs : List Instr) : ℕ := (instrs.map Instr.weight).sum

def programFrom (cfg : Setup) (n : ℤ) (m : Int32) : List Instr → List (ℤ × Item)
  | [] => []
  | I :: instrs => (I.entries cfg m).map (n, ·) ++
      programFrom cfg (n + I.weight) (I.accessIds m) instrs

section Pending

variable {p s : ℕ}

theorem toInt_ofNat (h : p < 2 ^ 31) : (Int32.ofNat p).toInt = p :=
  Int32.toInt_ofNat_of_lt h

theorem flushed_ofNat (h : p < 2 ^ 31) : (flushed (Int32.ofNat p)).2 = 0 ∧
    cycles (flushed (Int32.ofNat p)).1 = p := by
  have hb := flushed_balance (Int32.ofNat p)
  have hp := flushed_pending (Int32.ofNat p)
  rw [toInt_ofNat h] at hb hp
  have hz : (flushed (Int32.ofNat p)).2.toInt = 0 := by omega
  refine ⟨Int32.toInt_inj.mp hz, by omega⟩

theorem stamps_flushed (q : Int32) (n : ℤ) (l : List Item) :
    stampsFrom n ((flushed q).1 ++ l) = stampsFrom (n + cycles (flushed q).1) l := by
  unfold flushed
  split_ifs <;> simp [stampsFrom, cycles, Item.cycles]

theorem stamps_entries (I : Instr) (m : Int32) (n : ℤ) (l : List Item) :
    stampsFrom n (I.entries cfg m ++ l) = (I.entries cfg m).map (n, ·) ++ stampsFrom n l := by
  have hall : ∀ e ∈ I.entries cfg m, ∀ k ds, e ≠ .stall k ds := by
    match I with
    | .load ptr deps | .store ptr value deps =>
      simp only [entries]
      split_ifs <;> simp
    | .call (some (f, args)) =>
      simp only [entries, Func.items, mem_cons, mem_append, mem_replicate]
      rintro e (rfl | ⟨-, rfl⟩ | ⟨-, rfl⟩) k ds <;> simp
    | .call none | .traced ds | .other => simp [entries]
  generalize I.entries cfg m = es at hall
  induction es with
  | nil => rfl
  | cons e es ih =>
    have he := hall e mem_cons_self
    have ih := ih fun e' he' => hall e' (mem_cons_of_mem e he')
    cases e with
    | stall k ds => exact absurd rfl (he k ds)
    | _ => simp [stampsFrom, ih]

/-- What the calls of an instruction write, and what they leave pending, when `s` stalls
are counted and `p` are pending. -/
def Instr.writes (cfg : Setup) (s p : ℕ) (m : Int32) : Instr → List Item × ℕ
  | .load ptr deps =>
    if shouldTranslate cfg.addrSpaces ptr then
      ((flushed (Int32.ofNat p)).1 ++ Instr.entries cfg m (.load ptr deps), s) else ([], p + s)
  | .store ptr value deps =>
    if shouldTranslate cfg.addrSpaces ptr then
      ((flushed (Int32.ofNat p)).1 ++ Instr.entries cfg m (.store ptr value deps), s)
        else ([], p + s)
  | .traced (d :: ds) =>
    ((flushed (Int32.ofNat p)).1 ++
      [.stall (Int32.ofNat (s + 1)).toUInt32 (collectDeps (numDeps (d :: ds)) (dep (d :: ds) 0)
        (dep (d :: ds) 1) (dep (d :: ds) 2))], 0)
  | I => (I.entries cfg m, p)

theorem effect_stallCall (cfg : Setup) (h : p + s < 2 ^ 31) :
    (stallCall s).effect cfg (Int32.ofNat p) = ([], Int32.ofNat (p + s)) ∧
      (stallCall s).Fits (Int32.ofNat p) := by
  have hp := toInt_ofNat (by omega : p < 2 ^ 31)
  have hs := toInt_ofNat (by omega : s < 2 ^ 31)
  have hk : ¬ (0 : Int32) > 0 := by decide
  have hsum : Int32.ofInt ((p : ℤ) + s) = Int32.ofNat (p + s) := by
    apply Int32.toInt_inj.mp
    rw [Int32.toInt_ofInt_of_le (by omega) (by omega), toInt_ofNat h]
    simp
  refine ⟨?_, .inr ?_⟩
  · rw [stallCall, Call.effect, if_neg hk, hp, hs, hsum]
  · rw [hp, hs]
    omega

theorem numDeps_pos (d : Ptr) (ds : List Ptr) : numDeps (d :: ds) > 0 := by
  match ds with
  | [] | [_] | _ :: _ :: _ =>
    simp only [numDeps, List.take, length_cons, length_nil]
    decide

theorem ofNat_pos (h : s + 1 < 2 ^ 31) : Int32.ofNat (s + 1) > 0 := by
  rw [gt_iff_lt, Int32.lt_iff_toInt_lt, toInt_ofNat h]
  exact Int.natCast_pos.mpr (Nat.succ_pos s)

theorem effects_access (cfg : Setup) (c : Call) (e : Item) (ptr : Ptr) (h : p + s < 2 ^ 31)
    (hc : ∀ q, c.effect cfg q = if shouldTranslate cfg.addrSpaces ptr
      then ((flushed q).1 ++ [e], (flushed q).2) else ([], q)) (hfit : ∀ q, c.Fits q) :
    effects cfg (Int32.ofNat p) (c :: if s > 0 then [stallCall s] else []) =
        (if shouldTranslate cfg.addrSpaces ptr
          then ((flushed (Int32.ofNat p)).1 ++ [e], Int32.ofNat s) else ([], Int32.ofNat (p + s))) ∧
      FitAll cfg (Int32.ofNat p) (c :: if s > 0 then [stallCall s] else []) := by
  have hf := flushed_ofNat (by omega : p < 2 ^ 31)
  have hz : (0 : Int32) = Int32.ofNat 0 := rfl
  by_cases hs : s > 0
  · rw [if_pos hs]
    by_cases ht : shouldTranslate cfg.addrSpaces ptr = true
    · have hst := effect_stallCall cfg (p := 0) (s := s) (by omega)
      simp only [effects, FitAll, hc, if_pos ht, hf.1, hz, hst.1, hst.2, hfit]
      simp
    · have hst := effect_stallCall cfg h
      simp only [effects, FitAll, hc, if_neg ht, hst.1, hst.2, hfit]
      simp
  · obtain rfl : s = 0 := by omega
    rw [if_neg hs]
    by_cases ht : shouldTranslate cfg.addrSpaces ptr = true
    · simp [effects, FitAll, hc, ht, hf.1, hz, hfit]
    · simp [effects, FitAll, hc, ht, hfit]

theorem effects_calls (cfg : Setup) (I : Instr) (m : Int32) (h : p + s + I.weight < 2 ^ 31) :
    effects cfg (Int32.ofNat p) (I.calls s m) =
        ((I.writes cfg s p m).1, Int32.ofNat (I.writes cfg s p m).2) ∧
      FitAll cfg (Int32.ofNat p) (I.calls s m) := by
  match I with
  | .load ptr deps =>
    obtain ⟨he, hfit⟩ := effects_access cfg (loadCall ptr deps m)
      (.load ptr (collectDeps (numDeps deps) (dep deps 0) (dep deps 1) (dep deps 2)) m) ptr
      (show p + s < 2 ^ 31 from h) (fun _ => rfl) (fun _ => trivial)
    refine ⟨he.trans ?_, hfit⟩
    simp only [writes, entries]
    split_ifs <;> rfl
  | .store ptr value deps =>
    obtain ⟨he, hfit⟩ := effects_access cfg (storeCall ptr value deps m)
      (.store ptr value (collectDeps (numDeps deps) (dep deps 0) (dep deps 1) (dep deps 2)) m) ptr
      (show p + s < 2 ^ 31 from h) (fun _ => rfl) (fun _ => trivial)
    refine ⟨he.trans ?_, hfit⟩
    simp only [writes, entries]
    split_ifs <;> rfl
  | .call (some (f, args)) =>
    refine ⟨?_, trivial, trivial⟩
    simp [calls, effects, Call.effect, writes, entries]
  | .call none | .traced [] | .other => exact ⟨rfl, trivial⟩
  | .traced (d :: ds) =>
    have hlt : p + s + 1 < 2 ^ 31 := h
    have hf := flushed_ofNat (by omega : p < 2 ^ 31)
    have hpos := ofNat_pos (by omega : s + 1 < 2 ^ 31)
    have hk := numDeps_pos d ds
    refine ⟨?_, .inl hk, trivial⟩
    simp only [calls, effects, depStallCall, Call.effect, if_pos hk, dependent, if_pos hpos,
      append_nil, writes]
    rfl

theorem toNat_ofNat_toUInt32 (h : s < 2 ^ 31) : ((Int32.ofNat s).toUInt32.toNat : ℤ) = s := by
  rcases Nat.eq_zero_or_pos s with rfl | hpos
  · rfl
  · obtain ⟨k, rfl⟩ := Nat.exists_eq_add_of_lt hpos
    rw [Nat.zero_add] at h ⊢
    rw [toUInt32_of_pos (ofNat_pos h), toInt_ofNat h]

theorem cycles_nonneg (items : List Item) : 0 ≤ cycles items := by
  apply sum_nonneg
  intro k hk
  obtain ⟨e, -, rfl⟩ := mem_map.mp hk
  cases e <;> simp [Item.cycles]

theorem cycles_entries (I : Instr) (m : Int32) : cycles (I.entries cfg m) = 0 := by
  match I with
  | .load ptr deps | .store ptr value deps =>
    simp only [entries]
    split_ifs <;> simp [cycles, Item.cycles]
  | .call (some (f, args)) => exact cycles_func_items f args
  | .call none | .traced ds | .other => rfl

theorem writes_balance (cfg : Setup) (I : Instr) (m : Int32) (h : p + s + I.weight < 2 ^ 31) :
    cycles (I.writes cfg s p m).1 + (I.writes cfg s p m).2 + I.counts s = p + s + I.weight := by
  have hf := (flushed_ofNat (by omega : p < 2 ^ 31)).2
  match I with
  | .load ptr deps | .store ptr value deps =>
    simp only [Instr.writes, Instr.counts, Instr.weight]
    split_ifs with ht
    · rw [cycles_append, hf, cycles_entries]
      push_cast
      omega
    · simp [cycles]
  | .call (some (f, args)) =>
    simp [Instr.writes, Instr.counts, Instr.weight, cycles_entries]
  | .call none | .other => simp [Instr.writes, Instr.counts, Instr.weight, cycles_entries]
  | .traced [] => simp [Instr.writes, Instr.counts, Instr.weight, cycles_entries]; ring
  | .traced (d :: ds) =>
    have hlt : p + s + 1 < 2 ^ 31 := h
    have hn := toNat_ofNat_toUInt32 (by omega : s + 1 < 2 ^ 31)
    simp only [Instr.writes, Instr.counts, Instr.weight, cycles_append, hf]
    simp only [cycles, Item.cycles, map_cons, map_nil, sum_cons, sum_nil, hn]
    push_cast
    ring

def Instr.left (cfg : Setup) (s p : ℕ) : Instr → ℕ
  | .load ptr _ | .store ptr _ _ => if shouldTranslate cfg.addrSpaces ptr then s else p + s
  | .traced (_ :: _) => 0
  | _ => p

theorem writes_snd (cfg : Setup) (s p : ℕ) (m : Int32) (I : Instr) :
    (I.writes cfg s p m).2 = I.left cfg s p := by
  match I with
  | .load _ _ | .store _ _ _ =>
    simp only [writes, left]
    split_ifs <;> rfl
  | .call (some _) | .call none | .traced [] | .traced (_ :: _) | .other => rfl

def Instr.InStep (cfg : Setup) (s p : ℕ) : Instr → Prop
  | .load ptr _ | .store ptr _ _ => shouldTranslate cfg.addrSpaces ptr = true → s = 0
  | .call (some _) => s = 0 ∧ p = 0
  | _ => True

theorem map_stamp_append {a b : ℤ} (es : List Item) (l l' : List (ℤ × Item)) :
    es.map (a, ·) ++ l = es.map (b, ·) ++ l' ↔ (es ≠ [] → a = b) ∧ l = l' := by
  cases es with
  | nil => simp
  | cons e es =>
    constructor
    · intro h
      have hab : a = b := by simpa using congrArg List.head? h
      subst hab
      exact ⟨fun _ => rfl, append_cancel_left h⟩
    · rintro ⟨hab, rfl⟩
      rw [hab (by simp)]

theorem stamps_writes (I : Instr) (m : Int32) (n : ℤ) (l : List Item) (l' : List (ℤ × Item))
    (h : p + s + I.weight < 2 ^ 31) :
    stampsFrom n ((I.writes cfg s p m).1 ++ l) = (I.entries cfg m).map (n + p + s, ·) ++ l' ↔
      I.InStep cfg s p ∧ stampsFrom (n + cycles (I.writes cfg s p m).1) l = l' := by
  have hf := (flushed_ofNat (by omega : p < 2 ^ 31)).2
  match I with
  | .load ptr deps | .store ptr value deps =>
    simp only [writes, Instr.InStep]
    split_ifs with ht
    · rw [append_assoc, stamps_flushed, stamps_entries, hf, map_stamp_append, cycles_append, hf,
        cycles_entries, add_zero]
      simp [entries, ht]
    · simp [entries, ht, cycles]
  | .call (some (f, args)) =>
    simp only [writes, Instr.InStep]
    rw [stamps_entries, map_stamp_append, cycles_entries, add_zero]
    have hne : entries cfg m (.call (some (f, args))) ≠ [] := by simp [entries, Func.items]
    simp only [hne, ne_eq, not_false_eq_true, true_implies]
    refine and_congr_left fun _ => ?_
    omega
  | .call none | .traced [] | .other => simp [writes, Instr.InStep, entries, cycles]
  | .traced (d :: ds) =>
    simp only [writes, Instr.InStep, entries, map_nil, nil_append, true_and]
    rw [append_assoc, stamps_flushed, cycles_append, ← add_assoc]
    simp [stampsFrom, cycles, Item.cycles]

def Steady (cfg : Setup) (s p : ℕ) : List Instr → Prop
  | [] => True
  | I :: instrs => I.InStep cfg s p ∧ Steady cfg (I.counts s) (I.left cfg s p) instrs

theorem effects_block (instrs : List Instr) (m : Int32) (h : p + s + weight instrs < 2 ^ 31) :
    FitAll cfg (Int32.ofNat p) (callsFrom s m instrs ++ [.emitStall]) ∧
    cycles (effects cfg (Int32.ofNat p) (callsFrom s m instrs ++ [.emitStall])).1 =
      p + s + weight instrs ∧
    ∀ n, stampsFrom n (effects cfg (Int32.ofNat p) (callsFrom s m instrs ++ [.emitStall])).1 =
      programFrom cfg (n + p + s) m instrs ↔ Steady cfg s p instrs := by
  induction instrs generalizing s p m with
  | nil =>
    have hsum : p + s < 2 ^ 31 := h
    have hst := effect_stallCall cfg hsum
    have hend : effects cfg (Int32.ofNat p) (callsFrom s m [] ++ [.emitStall]) =
        flushed (Int32.ofNat (p + s)) ∧
        FitAll cfg (Int32.ofNat p) (callsFrom s m [] ++ [.emitStall]) := by
      by_cases hs : s > 0
      · have hcalls : callsFrom s m [] ++ [Call.emitStall] = [stallCall s, .emitStall] := by
          rw [callsFrom, if_pos hs]
          rfl
        rw [hcalls]
        simp only [effects, FitAll, hst.1, hst.2, nil_append, append_nil]
        exact ⟨rfl, trivial, trivial, trivial⟩
      · obtain rfl : s = 0 := by omega
        simp [callsFrom, effects, FitAll, Call.effect, Call.Fits]
    have hstamps : ∀ n, stampsFrom n (flushed (Int32.ofNat (p + s))).1 = [] := by
      intro n
      have hflush := stamps_flushed (Int32.ofNat (p + s)) n []
      rwa [append_nil] at hflush
    refine ⟨hend.2, ?_, fun n => ?_⟩
    · rw [hend.1, (flushed_ofNat hsum).2]
      simp [weight]
    · rw [hend.1, hstamps]
      simp [programFrom, Steady]
  | cons I instrs ih =>
    have hw : weight (I :: instrs) = I.weight + weight instrs := by simp [weight]
    have hI : p + s + I.weight < 2 ^ 31 := by omega
    obtain ⟨heff, hfit⟩ := effects_calls cfg I m hI
    have hbal := writes_balance cfg I m hI
    have hnonneg : 0 ≤ cycles (I.writes cfg s p m).1 := cycles_nonneg _
    rw [writes_snd] at heff hbal
    have ih := ih (s := I.counts s) (p := I.left cfg s p) (I.accessIds m) (by omega)
    obtain ⟨hfits, hcycles, hstamps⟩ := ih
    have hsplit : (effects cfg (Int32.ofNat p) (callsFrom s m (I :: instrs) ++ [.emitStall])).1 =
        (I.writes cfg s p m).1 ++ (effects cfg (Int32.ofNat (I.left cfg s p))
          (callsFrom (I.counts s) (I.accessIds m) instrs ++ [.emitStall])).1 := by
      rw [callsFrom, append_assoc, effects_append, heff]
    refine ⟨?_, ?_, fun n => ?_⟩
    · rw [callsFrom, append_assoc, fitAll_append, heff]
      exact ⟨hfit, hfits⟩
    · rw [hsplit, cycles_append, hcycles, hw]
      push_cast
      omega
    · have hstart : n + p + s + I.weight =
          n + cycles (I.writes cfg s p m).1 + I.left cfg s p + I.counts s := by omega
      rw [hsplit, programFrom, stamps_writes I m n _ _ hI, hstart, hstamps]
      rfl

end Pending

def Instr.resets : Instr → Bool
  | .load _ _ | .store _ _ _ | .traced (_ :: _) => true
  | _ => false

def Instr.accesses (cfg : Setup) : Instr → Bool
  | .load ptr _ | .store ptr _ _ => shouldTranslate cfg.addrSpaces ptr
  | _ => false

def Instr.flushes (cfg : Setup) : Instr → Bool
  | .traced (_ :: _) => true
  | I => I.accesses cfg

def Unsettled (f : Instr → Bool) (instrs : List Instr) : Prop :=
  ∃ l₁ l₂, instrs = l₁ ++ .traced [] :: l₂ ∧ ∀ J ∈ l₂, f J = false

/-- In front of a written access each traced instruction without dependencies is followed by an
access or a traced instruction with dependencies; in front of an intrinsic, by a written access
or such an instruction. -/
def Instr.Settles (cfg : Setup) (before : List Instr) : Instr → Prop
  | .load ptr _ | .store ptr _ _ =>
    shouldTranslate cfg.addrSpaces ptr = true → ¬ Unsettled Instr.resets before
  | .call (some _) => ¬ Unsettled (Instr.flushes cfg) before
  | _ => True

def Settled (cfg : Setup) (instrs : List Instr) : Prop :=
  ∀ l₁ I l₂, instrs = l₁ ++ I :: l₂ → I.Settles cfg l₁

theorem unsettled_snoc {f : Instr → Bool} (l : List Instr) (I : Instr) :
    Unsettled f (l ++ [I]) ↔ I = .traced [] ∨ (Unsettled f l ∧ f I = false) := by
  constructor
  · rintro ⟨l₁, l₂, hl, hall⟩
    induction l₂ using List.reverseRecOn with
    | nil =>
      left
      exact (append_inj' hl rfl).2 |> singleton_inj.mp
    | append_singleton l₂ J _ =>
      rw [← cons_append, ← append_assoc] at hl
      obtain ⟨hl', hI⟩ := append_inj' hl rfl
      obtain rfl := singleton_inj.mp hI
      exact .inr ⟨⟨l₁, l₂, hl', fun K hK => hall K (by simp [hK])⟩, hall I (by simp)⟩
  · rintro (rfl | ⟨⟨l₁, l₂, rfl, hall⟩, hI⟩)
    · exact ⟨l, [], rfl, by simp⟩
    · refine ⟨l₁, l₂ ++ [I], by simp, fun J hJ => ?_⟩
      rcases mem_append.mp hJ with hJ | hJ
      · exact hall J hJ
      · rw [mem_singleton.mp hJ]
        exact hI

theorem not_unsettled_nil (f : Instr → Bool) : ¬ Unsettled f [] := by
  rintro ⟨l₁, l₂, hl, -⟩
  simp at hl

def swept (cfg : Setup) (instrs : List Instr) : ℕ × ℕ :=
  instrs.foldl (fun x I => (I.counts x.1, I.left cfg x.1 x.2)) (0, 0)

theorem swept_snoc (l : List Instr) (I : Instr) : swept cfg (l ++ [I]) =
    (I.counts (swept cfg l).1, I.left cfg (swept cfg l).1 (swept cfg l).2) := by
  simp [swept]

theorem forall_split_snoc {P : List Instr → Instr → Prop} (l : List Instr) (I : Instr) :
    (∀ l₁ J l₂, l ++ [I] = l₁ ++ J :: l₂ → P l₁ J) ↔
      (∀ l₁ J l₂, l = l₁ ++ J :: l₂ → P l₁ J) ∧ P l I := by
  constructor
  · intro h
    refine ⟨fun l₁ J l₂ hl => h l₁ J (l₂ ++ [I]) (by simp [hl]), h l I [] rfl⟩
  · rintro ⟨h, hI⟩ l₁ J l₂ hl
    induction l₂ using List.reverseRecOn with
    | nil =>
      obtain ⟨rfl, hJ⟩ := append_inj' hl rfl
      obtain rfl := singleton_inj.mp hJ
      exact hI
    | append_singleton l₂ K _ =>
      rw [← cons_append, ← append_assoc] at hl
      exact h l₁ J l₂ (append_inj' hl rfl).1

theorem steady_iff_split (cfg : Setup) (done l : List Instr) :
    Steady cfg (swept cfg done).1 (swept cfg done).2 l ↔ ∀ l₁ I l₂, l = l₁ ++ I :: l₂ →
      I.InStep cfg (swept cfg (done ++ l₁)).1 (swept cfg (done ++ l₁)).2 := by
  induction l generalizing done with
  | nil => simp [Steady]
  | cons I l ih =>
    have ih := ih (done ++ [I])
    rw [swept_snoc] at ih
    rw [Steady, ih]
    constructor
    · rintro ⟨hI, h⟩ l₁ J l₂ hl
      cases l₁ with
      | nil =>
        obtain ⟨rfl, -⟩ := List.cons.inj hl
        simpa using hI
      | cons K l₁ =>
        obtain ⟨rfl, hl'⟩ := List.cons.inj hl
        simpa using h l₁ J l₂ hl'
    · intro h
      refine ⟨by simpa using h [] I l rfl, fun l₁ J l₂ hl => ?_⟩
      simpa using h (I :: l₁) J l₂ (by rw [hl]; rfl)

theorem counted_iff (cfg : Setup) (l : List Instr) : (swept cfg l).1 ≠ 0 ↔ Unsettled resets l := by
  induction l using List.reverseRecOn with
  | nil => simp [swept, not_unsettled_nil]
  | append_singleton l I ih =>
    rw [swept_snoc, unsettled_snoc, ← ih]
    match I with
    | .load _ _ | .store _ _ _ | .traced (_ :: _) => simp [counts, resets]
    | .call _ | .other => simp [counts, resets]
    | .traced [] => simp [counts]

/-- As long as every entry was in step, cycles are on the way exactly when a traced
instruction was not followed by anything that writes them. -/
theorem on_the_way_iff (l : List Instr) (h : ∀ l₁ I l₂, l = l₁ ++ I :: l₂ →
      I.InStep cfg (swept cfg l₁).1 (swept cfg l₁).2) :
    ¬ ((swept cfg l).1 = 0 ∧ (swept cfg l).2 = 0) ↔ Unsettled (flushes cfg) l := by
  induction l using List.reverseRecOn with
  | nil => simp [swept, not_unsettled_nil]
  | append_singleton l I ih =>
    obtain ⟨hl, hI⟩ := (forall_split_snoc l I).mp h
    rw [swept_snoc, unsettled_snoc, ← ih hl]
    match I with
    | .load ptr _ | .store ptr _ _ =>
      cases ht : shouldTranslate cfg.addrSpaces ptr with
      | true =>
        have hz : (swept cfg l).1 = 0 := hI ht
        simp [counts, left, flushes, accesses, ht, hz]
      | false =>
        simp [counts, left, flushes, accesses, ht]
        omega
    | .call _ | .other => simp [counts, left, flushes, accesses]
    | .traced [] => simp [counts]
    | .traced (_ :: _) => simp [counts, left, flushes]

/-- The entry of an instruction is in step exactly when nothing in front of it is
unsettled, as long as the entries before it were. -/
theorem inStep_iff_settles (l : List Instr) (I : Instr) (h : ∀ l₁ I l₂, l = l₁ ++ I :: l₂ →
      I.InStep cfg (swept cfg l₁).1 (swept cfg l₁).2) :
    I.InStep cfg (swept cfg l).1 (swept cfg l).2 ↔ I.Settles cfg l := by
  match I with
  | .load _ _ | .store _ _ _ =>
    simp only [Instr.InStep, Instr.Settles, ← counted_iff cfg, ne_eq, not_not]
  | .call (some _) =>
    simp only [Instr.InStep, Instr.Settles, ← on_the_way_iff l h, not_not]
  | .call none | .traced _ | .other => rfl

theorem steady_iff_settled (l : List Instr) : Steady cfg 0 0 l ↔ Settled cfg l := by
  have hsteady := steady_iff_split cfg [] l
  simp only [nil_append] at hsteady
  rw [show swept cfg [] = (0, 0) from rfl] at hsteady
  rw [hsteady]
  clear hsteady
  induction l using List.reverseRecOn with
  | nil => simp [Settled]
  | append_singleton l I ih =>
    rw [Settled, forall_split_snoc, forall_split_snoc]
    exact (and_congr_right fun h => inStep_iff_settles l I h).trans (and_congr_left' ih)

/-- The instrumented block, run with an open log, writes one stall cycle for every traced
instruction; its entries are the program's, each behind the cycles of the instructions in front,
exactly when the block is settled. -/
theorem block_trace_iff_settled {r : Runtime} (hone : cfg.OneType) (hlive : Live cfg r)
    (hzero : r.stalls = 0) (m : Int32) (b : Block) (hsum : weight b.instrs < 2 ^ 31) :
    ∃ r' items, Runs.run (call cfg) r (blockCalls m b ++ [.emitStall]) = .ok r' ∧
      r'.file cfg.id = r.file cfg.id ++ items ∧ cycles items = weight b.instrs ∧
      (stampsFrom 0 items = programFrom cfg 0 m b.instrs ↔ Settled cfg b.instrs) := by
  obtain ⟨hfit, hcycles, hstamps⟩ :
      FitAll cfg (Int32.ofNat 0) (callsFrom 0 m b.instrs ++ [.emitStall]) ∧ _ ∧ _ :=
    effects_block b.instrs m (by omega)
  rw [show Int32.ofNat 0 = r.stalls from hzero.symm] at hfit hcycles hstamps
  refine ⟨_, (effects cfg r.stalls (callsFrom 0 m b.instrs ++ [.emitStall])).1,
    by rw [blockCalls_eq, run_effects hone hlive hfit], by simp, by simpa using hcycles, ?_⟩
  rw [← steady_iff_settled, ← hstamps 0]
  simp

theorem block_trace_settled_load : ∃ r' items,
    Runs.run (call onePe) (openTraceLog 0 .init)
      (blockCalls 0 ⟨[.traced [], .traced [24], .load 24 []], none⟩ ++ [.emitStall]) = .ok r' ∧
    r'.file 0 = (openTraceLog 0 .init).file 0 ++ items ∧ cycles items = 2 ∧
    stampsFrom 0 items = programFrom onePe 0 0 [.traced [], .traced [24], .load 24 [], .other] := by
  obtain ⟨r', items, hrun, hfile, hcycles, hiff⟩ := block_trace_iff_settled
    (by decide : onePe.OneType) (open_live onePe .init) (by decide) 0
    ⟨[.traced [], .traced [24], .load 24 []], none⟩ (by decide)
  refine ⟨r', items, hrun, hfile, hcycles, hiff.mpr ((steady_iff_settled _).mp ?_)⟩
  simp [Block.instrs, Block.last, Steady, Instr.InStep, counts]

theorem stall_written_behind_load :
    Runs.Ends (call onePe) (openTraceLog 0 .init)
      (blockCalls 0 ⟨[.load 24 [], .traced [], .load 32 []], none⟩ ++ [.emitStall])
      (fun r => r.file 0 = [.load 24 [] 0, .load 32 [] 1, .stall 1 []]) := by
  decide +kernel

end HetSim.Tracer
