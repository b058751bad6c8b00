import HetSim.Library.Histories

/-!
# A bounded channel between two parties

Each side has a stock: the free places, or the items. An operation takes one unit from its side
and gives one to the other. A side that finds its stock empty waits; the next operation of the
other side wakes it, and it then finds the unit left for it.
-/

namespace HetSim.Channels
open Histories

inductive Side
  | push | pop
  deriving DecidableEq

def Side.other : Side → Side
  | .push => .pop
  | .pop => .push

@[simp] theorem Side.other_other (s : Side) : s.other.other = s := by cases s <;> rfl

theorem Side.other_ne (s : Side) : s.other ≠ s := by cases s <;> nofun

theorem Side.eq_other {s t : Side} (h : s ≠ t) : t = s.other := by
  cases s <;> cases t <;> first | rfl | exact absurd rfl h

inductive Phase
  | idle | waiting | woken
  deriving DecidableEq

structure Channel where
  stock : Side → ℕ
  phase : Side → Phase
  drained : ∀ s, phase s = .waiting → stock s = 0
  served : ∀ s, phase s = .woken → 0 < stock s

namespace Channel

variable (c : Channel) (s : Side)

def empty (depth : ℕ) : Channel where
  stock
    | .push => depth
    | .pop => 0
  phase _ := .idle
  drained := nofun
  served := nofun

def wait (h : c.stock s = 0) : Channel where
  stock := c.stock
  phase := Function.update c.phase s .waiting
  drained t ht := by
    by_cases hts : t = s
    · rw [hts, h]
    · exact c.drained t (by simpa [hts] using ht)
  served t ht := by
    by_cases hts : t = s
    · simp [hts] at ht
    · exact c.served t (by simpa [hts] using ht)

def complete : Channel where
  stock t := if t = s then c.stock s - 1 else c.stock t + 1
  phase t := if t = s then .idle else if c.phase t = .waiting then .woken else c.phase t
  drained t ht := by
    by_cases hts : t = s
    · simp [hts] at ht
    · by_cases hw : c.phase t = .waiting
      · simp [hts, hw] at ht
      · simp [hts, hw] at ht
  served t ht := by
    by_cases hts : t = s
    · simp [hts] at ht
    · simp [hts]

end Channel

inductive Op
  | wait (s : Side)
  | done (s : Side) (woke : Bool)
  deriving DecidableEq

def Op.side : Op → Side
  | .wait s | .done s _ => s

inductive Step : Channel → Op → Channel → Prop
  | wait {c s} (h : c.stock s = 0) (hp : c.phase s = .idle) : Step c (.wait s) (c.wait s h)
  | done {c s} (h : 0 < c.stock s) (hp : c.phase s ≠ .waiting) :
      Step c (.done s (c.phase s.other = .waiting)) (c.complete s)

namespace Step

variable {c c' : Channel} {o : Op} {s : Side}

theorem woke_of_waiting_lost (h : Step c o c') (hw : c.phase s = .waiting)
    (hw' : c'.phase s ≠ .waiting) : o = .done s.other true := by
  cases h with
  | @wait t ht hp =>
    by_cases hst : s = t
    · simp [Channel.wait, hst] at hw'
    · simp [Channel.wait, hst, hw] at hw'
  | @done t ht hp =>
    obtain rfl := Side.eq_other fun e : s = t => hp (e ▸ hw)
    simp [hw]

theorem done_of_woken_lost (h : Step c o c') (hw : c.phase s = .woken) (hw' : c'.phase s ≠ .woken) :
    ∃ woke, o = .done s woke := by
  cases h with
  | @wait t ht hp =>
    by_cases hst : s = t
    · rw [← hst, hw] at hp
      cases hp
    · simp [Channel.wait, hst, hw] at hw'
  | @done t ht hp =>
    by_cases hst : s = t
    · rw [hst]
      exact ⟨_, rfl⟩
    · simp [Channel.complete, hst, hw] at hw'

theorem woken_of_woke (h : Step c (.done s.other true) c') : c'.phase s = .woken := by
  generalize ho : Op.done s.other true = o at h
  cases h with
  | wait => cases ho
  | @done t ht hp =>
    simp only [Op.done.injEq] at ho
    obtain ⟨rfl, hw⟩ := ho
    have hw : c.phase s = .waiting := by simpa using hw.symm
    simp [Channel.complete, (Side.other_ne s).symm, hw]

end Step

section Histories

variable {c c' : Channel} {h₁ h₂ h₃ : List Op} {o : Op} {s : Side}

theorem not_both_waiting (hpos : 0 < c.stock .push + c.stock .pop) :
    ¬ (c.phase .push = .waiting ∧ c.phase .pop = .waiting) := by
  rintro ⟨hpush, hpop⟩
  have h₁ := c.drained _ hpush
  have h₂ := c.drained _ hpop
  omega

def Op.completes (s : Side) : Op → ℕ
  | .done t _ => if t = s then 1 else 0
  | .wait _ => 0

theorem items_eq {h : List Op} (hist : History Step c h c') :
    c'.stock .pop + (h.map (Op.completes .pop)).sum =
      c.stock .pop + (h.map (Op.completes .push)).sum := by
  refine hist.balance (f := fun c => c.stock .pop) fun r e r' hs => ?_
  cases hs with
  | wait => rfl
  | @done t ht hp =>
    cases t with
    | push => simp [Channel.complete, Op.completes]
    | pop => simp [Channel.complete, Op.completes]; omega

theorem woken_next {woke : Bool}
    (h : History Step c (h₁ ++ .wait s :: (h₂ ++ .done s.other woke :: h₃)) c')
    (hno : ∀ b, .done s.other b ∉ h₂) : woke = true := by
  obtain ⟨r, r', -, hwait, hrest⟩ := h.cut
  obtain ⟨t, t', hmid, hdone, -⟩ := hrest.cut
  have hr' : r'.phase s = .waiting := by
    cases hwait
    simp [Channel.wait]
  have ht : t.phase s = .waiting := by
    by_contra hc
    obtain ⟨e, he, u, u', hstep, hu, hu'⟩ := hmid.lost (Q := fun c => c.phase s = .waiting) hr' hc
    rw [hstep.woke_of_waiting_lost hu hu'] at he
    exact hno true he
  generalize ho : Op.done s.other woke = o at hdone
  cases hdone with
  | wait => cases ho
  | done hst hp =>
    simp only [Op.done.injEq] at ho
    obtain ⟨rfl, rfl⟩ := ho
    simpa using ht

theorem retry_completes
    (h : History Step c (h₁ ++ .done s.other true :: (h₂ ++ o :: h₃)) c')
    (hno : ∀ e ∈ h₂, e.side ≠ s) (ho : o.side = s) : ∃ woke, o = .done s woke := by
  obtain ⟨r, r', -, hwoke, hrest⟩ := h.cut
  obtain ⟨t, t', hmid, hop, -⟩ := hrest.cut
  have ht : t.phase s = .woken := by
    by_contra hc
    obtain ⟨e, he, u, u', hstep, hu, hu'⟩ :=
      hmid.lost (Q := fun c => c.phase s = .woken) hwoke.woken_of_woke hc
    obtain ⟨woke, rfl⟩ := hstep.done_of_woken_lost hu hu'
    exact hno _ he rfl
  cases hop with
  | wait hz hp =>
    subst ho
    exact nomatch hp.symm.trans ht
  | done =>
    subst ho
    exact ⟨_, rfl⟩

end Histories

end HetSim.Channels
