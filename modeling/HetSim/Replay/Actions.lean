import HetSim.Replay.WakeUps

/-!
# What an engine does and when

The observations an engine makes by an action of its own, which it can only make
while no shared object holds it, and the events in which it runs a primitive.
-/

namespace HetSim.Replay
open Checked List Function World

variable {cfg : Config} {w w' : World} {loc loc' : TREId → Loc} {i j : TREId} {env : Env}

def Obs.actor : Obs → Option TREId
  | .ticked i => some i
  | o => o.by?.map Prod.fst

theorem OwnMove.detached_of_effect {ℓ ℓ' : Loc} {s s' : TRE} {e : Effect}
    (h : OwnMove ℓ s (some e) ℓ' s') : ℓ.detached = true := by
  cases h <;> rfl

theorem Obs.effect_of_private {o : Obs} (hp : o.isPrivate i = true) (ha : o.actor = some j) :
    j = i ∧ ∃ e, o.effect i = some e := by
  cases o <;> simp_all [Obs.isPrivate, Obs.actor, Obs.by?, Obs.effect]

theorem Move.actors (h : Move w loc w' loc') : ∃ os, w'.log = w.log ++ os ∧
    ∀ j, Placed (w.tre j) (loc j) → ∀ o ∈ os, o.actor = some j → (loc j).detached = true := by
  cases h with
  | @engine k e ℓ s os h hos he =>
    refine ⟨os, rfl, fun j _ o ho hj => ?_⟩
    obtain ⟨rfl, eff, heff⟩ := Obs.effect_of_private (hos o ho) hj
    have hmem : eff ∈ e.toList := he ▸ mem_filterMap.mpr ⟨o, ho, heff⟩
    rw [Option.mem_toList] at hmem
    cases hmem
    exact h.detached_of_effect
  | fireTick k h =>
    refine ⟨_, rfl, fun j hp o ho hj => ?_⟩
    rw [mem_singleton] at ho
    subst ho
    cases hj
    rw [hp.tick.mp h]
    rfl
  | halt k n exit hx hℓ hb h =>
    refine ⟨_, rfl, fun j _ o ho hj => ?_⟩
    rcases hx with rfl | rfl <;> simp at ho
    · subst ho
      cases hj
    · rcases ho with rfl | rfl <;> cases hj
  | releaseBatch k hℓ hb hn hi ht =>
    refine ⟨_, append_assoc _ _ _, fun j _ o ho hj => ?_⟩
    rcases mem_cons.mp ho with rfl | ho
    · cases hj
      rw [hℓ]
      rfl
    · rw [mem_singleton.mp ho] at hj
      cases hj
  | queueWait k side hℓ hq hz =>
    refine ⟨_, rfl, fun j _ o ho hj => ?_⟩
    rw [mem_singleton.mp ho] at hj
    cases side <;> cases hj
  | queueDone k side hℓ hq hz hs ht =>
    refine ⟨_, by rw [set_log, emit_log, setQueue_log, wakeSlot_log], ?_⟩
    intro j _ o ho hj
    rw [mem_singleton.mp ho] at hj
    obtain rfl : k = j := by cases side <;> exact Option.some.inj hj
    rw [hℓ]
    rfl
  | initMutex k hℓ | lockGrant k hℓ | lockQueue k hℓ | unlockFree k hℓ | unlockHandoff k _ hℓ
  | initBarrier k hℓ | arrive k hℓ | sleep k hℓ | wake k hℓ =>
    refine ⟨_, rfl, fun j _ o ho hj => ?_⟩
    rw [mem_singleton.mp ho] at hj
    cases hj
    rw [hℓ]
    rfl

/-- The event `e` of engine `i` runs the primitive `p`: it is the primitive's own event, or a tick
that reads the entry and runs it at once. `os` is observed first; `s` is the engine then. -/
inductive Executes (w : World) (i : TREId) (p : Prim) : Event → List Obs → TRE → Prop
  | fire (h : (w.tre i).scheduled (.prim p) = true) :
      Executes w i p (.prim p) [] ((w.tre i).setFlag (.prim p) false)
  | read {pa da rest} (h : (w.tre i).scheduled .tick = true) (hr : (w.tre i).retryPkt = none)
      (hb : (w.tre i).blocked = false)
      (he : readEntry (w.tre i).traceFh = .ok (.prim p pa da 0, rest)) :
      Executes w i p .tick [.ticked i] (((w.tre i).setFlag .tick false).withPrim pa da rest)

def World.starting (w : World) (i : TREId) (os : List Obs) (s : TRE) : World :=
  { w with log := w.log ++ os }.set i s

theorem tickNext_of_prim {p : Prim} {pa : Option Addr} {da : Option UInt32} {c : UInt32}
    {rest : List String} (he : readEntry (w.tre i).traceFh = .ok (.prim p pa da c, rest)) :
    tickNext w i env = dispatch (w.set i ((w.tre i).withPrim pa da rest)) i env p c := by
  generalize hts : (w.tre i).traceFh = tokens at he
  cases readEntry_reads he with
  | @prim word p ts ops cycles haccess hstall hprim hops hcycles =>
    have hw : word ≠ "EOF" := by
      rintro rfl
      simp [primOf] at hprim
    simp only [tickNext, hts, readNextToken, if_neg hw, haccess, hstall, hprim, tickPrim,
      hops, ok_bind, hcycles]
    simp [TRE.withPrim, TRE.advance, hts]

theorem Calm.concat {l : List Obs} {o : Obs} (h : Calm j l) (ho : ∀ i d, o ≠ .woke i d j) :
    Calm j (l ++ [o]) := by
  intro l₁ i d l₂ hl
  induction l₂ using List.reverseRecOn with
  | nil =>
    obtain ⟨-, he⟩ := append_inj' hl rfl
    cases he
    exact absurd rfl (ho i d)
  | append_singleton l₂ o' _ =>
    rw [← cons_append, ← append_assoc] at hl
    exact h l₁ i d l₂ (append_inj' hl rfl).1

namespace Executes

variable {p : Prim} {e : Event} {os : List Obs} {s : TRE}

theorem step_eq (h : Executes w i p e os s) :
    step w (.fire i e, env) = runPrim (w.starting i os s) i env p := by
  cases h with
  | fire hf =>
    simp only [step, require, hf, if_true, World.starting, append_nil]
    rfl
  | @read pa da rest hf hr hb he =>
    have htick : tick ((w.set i ((w.tre i).setFlag .tick false)).emit (.ticked i)) i env =
        tickNext ((w.set i ((w.tre i).setFlag .tick false)).emit (.ticked i)) i env := by
      simp [tick, require, hr, hb, TRE.setFlag]
    have hstep : step w (.fire i .tick, env) =
        tick ((w.set i ((w.tre i).setFlag .tick false)).emit (.ticked i)) i env := by
      simp only [step, require, hf, if_true]
      rfl
    rw [hstep, htick, tickNext_of_prim (by simpa [TRE.setFlag] using he), dispatch, if_pos rfl]
    simp [World.starting, World.emit, World.set]

theorem sane (h : Executes w i p e os s) (hs : Sane cfg w loc) :
    Sane cfg (w.starting i os s) (update loc i (.holding p)) := by
  cases h with
  | fire hf =>
    exact (Move.engine i [] (.firePrim p hf) (by simp) rfl).sane hs
  | @read pa da rest hf hr hb he =>
    have hfire : Move w loc _ _ := .fireTick i hf
    have h₁ := hfire.sane hs
    have hread : OwnMove (update loc i .awake i)
        (((w.emit (.ticked i)).set i ((w.tre i).setFlag .tick false)).tre i) none (.holding p)
        (((w.tre i).setFlag .tick false).withPrim pa da rest) := by
      simp only [update_self, set_tre]
      exact .readPrim hb he
    have h₂ := (Move.engine i [] hread (by simp) rfl).sane h₁
    simpa [World.starting, World.emit, World.set] using h₂

theorem calm (h : Executes w i p e os s) (hc : Calm j w.log) : Calm j (w.starting i os s).log := by
  cases h with
  | fire => simpa [starting] using hc
  | read => exact hc.concat (fun _ _ => nofun)

theorem sound (h : Executes w i p e os s) (hs : Sane cfg w loc) (hc : Calm i w.log) :
    Sound cfg (w.starting i os s) i (.holding p) := by
  have hi := h.sane hs i (h.calm hc)
  rwa [update_self] at hi

/-- A lock or barrier that does not exist yet: the primitive changes no shared
object, and the engine ticks next and reads the same entry again. -/
theorem rewinds (h : Executes w i p e os s) (hs : Sane cfg w loc) (hc : Calm i w.log)
    (hp : p = .lockMutex ∨ p = .waitAtBarrier) {o : Obs}
    (hrun : runPrim (w.starting i os s) i env p = rewind ((w.starting i os s).emit o) i) :
    ∃ w', step w (.fire i e, env) = .ok w' ∧ w'.mutexMap = w.mutexMap ∧
      w'.barrierMap = w.barrierMap ∧ (w'.tre i).scheduled .tick = true ∧
      (w'.tre i).blocked = false ∧
      ∃ c rest, readEntry (w'.tre i).traceFh = .ok (.prim p (some s.paddr) none c, rest) := by
  have hi := h.sound hs hc
  have hsi : (w.starting i os s).tre i = s := by simp [starting]
  obtain ⟨hpl, -, -, hpa, -, -, -, -⟩ := hi
  rw [hsi] at hpl hpa
  have htick := (hpl.idle rfl).tick
  have hnb := hpl.not_blocked (by simp)
  obtain ⟨ent, hread, c, rfl⟩ := hpa.entry rfl
  refine ⟨_, (h.step_eq.trans hrun).trans (rewind_eq_ok.mpr ⟨by simpa [hsi] using htick, rfl⟩), ?_⟩
  simp only [emit_tre, hsi, set_tre, update_self]
  refine ⟨rfl, rfl, by simp [TRE.ticking], hnb, c, s.traceFh, ?_⟩
  rcases hp with rfl | rfl <;> exact hread

end Executes

end HetSim.Replay
