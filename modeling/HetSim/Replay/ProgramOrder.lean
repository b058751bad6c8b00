import HetSim.Replay.Blocking

/-!
# Program order

The effects of an engine realise the entries of its trace from the first one on. An access or a
stall takes effect only when nothing it depends on is outstanding.
-/

namespace HetSim.Replay
open TRE

variable {s s' : TRE} {ℓ ℓ' : Loc} {e : Option Effect}

def Effect.out : Effect → List Packet
  | .access _ out | .stall _ out => out
  | .prim .. => []

/-- An effect carries out an entry: it has the data of the entry, and no request
to an address the entry depends on is outstanding. -/
def Realises : Effect → Entry → Prop
  | .access pkt out, .access cmd unc blk _ a deps =>
    memCmd cmd = .ok pkt.cmd ∧ pkt.paddr = a ∧ pkt.uncacheable = unc ∧ pkt.blking = blk ∧
      ∀ q ∈ out, q.paddr ∉ deps
  | .stall n out, .stall _ n' deps => n = n' ∧ ∀ q ∈ out, q.paddr ∉ deps
  | .prim p pa da, .prim p' pa' da' _ => p = p' ∧ pa = pa' ∧ da = da'
  | _, _ => False

theorem TRE.todo_of_pending (h : s.pending ℓ = true) : s.todo ℓ = s.lastTokEntryPos := by
  rw [todo, if_pos h]

theorem TRE.todo_of_not_pending (h : s.pending ℓ = false) (hℓ : ℓ ≠ .halted) :
    s.todo ℓ = s.traceFh := by
  rw [todo, h, if_neg (by simp), if_neg hℓ]

theorem Parsed.carried (h : Parsed s ℓ) (hp : s.pending ℓ = true) (hp' : s'.pending ℓ' = false)
    (hℓ : ℓ' ≠ .halted) (hf : s'.traceFh = s.traceFh) :
    ∃ ent, entries (s.todo ℓ) = ent :: entries (s'.todo ℓ') ∧ Matches s ℓ ent := by
  obtain ⟨ent, he, hm⟩ := h.entry hp
  refine ⟨ent, ?_, hm⟩
  rw [todo_of_pending hp, todo_of_not_pending hp' hℓ, hf]
  exact entries_of_ok he

theorem Booked.not_mem_deps (h : Booked s ℓ) {deps : List Addr}
    (hd : ∀ d ∈ deps, s.inFlightAddr d = false) : ∀ q ∈ s.outstanding, q.paddr ∉ deps := by
  intro q hq hmem
  have hn := hd q.paddr hmem
  rw [← Bool.not_eq_true, inFlightAddr_iff] at hn
  exact hn (h.addrs.symm.subset (List.mem_map_of_mem hq))

variable {r : Req} {ent : Entry}

theorem Readies.realises_access {cmd : MemCmd} (h : Readies s r ent)
    (hb : Booked s (.ready r)) (hc : memCmd r.cmd = .ok cmd) :
    Realises (.access (s.packet r cmd) s.outstanding) ent := by
  cases ent with
  | access c unc blk pc a deps =>
    obtain ⟨-, h2, h3, h4, h5, h6⟩ := h
    exact ⟨h2 ▸ hc, h5, h3, h4, hb.not_mem_deps h6⟩
  | stall blk n deps => exact absurd h.1 (memCmd_ne_stall hc)
  | prim p pa da c => exact h

theorem Readies.realises_stall (h : Readies s r ent)
    (hb : Booked s (.ready r)) (hc : r.cmd = .stall) :
    Realises (.stall s.data s.outstanding) ent := by
  cases ent with
  | access c unc blk pc a deps => exact absurd (h.2.1.symm.trans hc) h.1
  | stall blk n deps => exact ⟨h.2.1, hb.not_mem_deps h.2.2⟩
  | prim p pa da c => exact h

theorem Holds.realises {p : Prim} (h : Holds s p ent) : Realises (s.primEffect p) ent := by
  obtain ⟨c, rfl⟩ := h
  exact ⟨rfl, rfl, rfl⟩

def Advances (s : TRE) (ℓ : Loc) (e : Option Effect) (ℓ' : Loc) (s' : TRE) : Prop :=
  (e = none ∧ entries (s'.todo ℓ') = entries (s.todo ℓ)) ∨
  ∃ eff ent, e = some eff ∧ entries (s.todo ℓ) = ent :: entries (s'.todo ℓ') ∧ Realises eff ent

namespace Advances

theorem keep (hp : s.pending ℓ = true) (hp' : s'.pending ℓ' = true)
    (hl : s'.lastTokEntryPos = s.lastTokEntryPos) : Advances s ℓ none ℓ' s' := by
  refine .inl ⟨rfl, ?_⟩
  rw [todo_of_pending hp, todo_of_pending hp', hl]

theorem idle (hp : s.pending ℓ = false) (hp' : s'.pending ℓ' = false) (hℓ : ℓ ≠ .halted)
    (hℓ' : ℓ' ≠ .halted) (hf : s'.traceFh = s.traceFh) : Advances s ℓ none ℓ' s' := by
  refine .inl ⟨rfl, ?_⟩
  rw [todo_of_not_pending hp hℓ, todo_of_not_pending hp' hℓ', hf]

theorem read (hp : s.pending ℓ = false) (hℓ : ℓ ≠ .halted) (hp' : s'.pending ℓ' = true)
    (hl : s'.lastTokEntryPos = s.traceFh) : Advances s ℓ none ℓ' s' := by
  refine .inl ⟨rfl, ?_⟩
  rw [todo_of_not_pending hp hℓ, todo_of_pending hp', hl]

theorem prim {p : Prim} (hq : Parsed s (.holding p)) (hp' : s'.pending ℓ' = false)
    (hℓ : ℓ' ≠ .halted) (hf : s'.traceFh = s.traceFh) :
    Advances s (.holding p) (some (s.primEffect p)) ℓ' s' := by
  obtain ⟨ent, he, hm⟩ := hq.carried rfl hp' hℓ hf
  exact .inr ⟨_, ent, rfl, he, hm.realises⟩

theorem access {cmd : MemCmd} (hb : Booked s (.ready r)) (hq : Parsed s (.ready r))
    (hc : memCmd r.cmd = .ok cmd) (hp' : s'.pending ℓ' = false) (hℓ : ℓ' ≠ .halted)
    (hf : s'.traceFh = s.traceFh) :
    Advances s (.ready r) (some (.access (s.packet r cmd) s.outstanding)) ℓ' s' := by
  obtain ⟨ent, he, hm⟩ := hq.carried rfl hp' hℓ hf
  exact .inr ⟨_, ent, rfl, he, Readies.realises_access hm hb hc⟩

theorem stall (hb : Booked s (.ready r)) (hq : Parsed s (.ready r)) (hc : r.cmd = .stall)
    (hp' : s'.pending ℓ' = false) (hℓ : ℓ' ≠ .halted) (hf : s'.traceFh = s.traceFh) :
    Advances s (.ready r) (some (.stall s.data s.outstanding)) ℓ' s' := by
  obtain ⟨ent, he, hm⟩ := hq.carried rfl hp' hℓ hf
  exact .inr ⟨_, ent, rfl, he, Readies.realises_stall hm hb hc⟩

end Advances

theorem OwnMove.advances (h : OwnMove ℓ s e ℓ' s') (hp : Placed s ℓ) (hb : Booked s ℓ)
    (hq : Parsed s ℓ) : Advances s ℓ e ℓ' s' := by
  cases h with
  | firePrim p hs =>
    obtain rfl := (hp.prim p).mp hs
    exact .keep rfl rfl rfl
  | stayBlocked hbl hd => exact .keep hbl rfl rfl
  | unblock hbl hd => exact .keep hbl rfl rfl
  | parkAccess hbl he hz => exact .read hbl (by simp) rfl rfl
  | readyAccess hbl he hf hz => exact .read hbl (by simp) rfl rfl
  | parkStall hbl he hz => exact .read hbl (by simp) rfl rfl
  | readyStall hbl he hz => exact .read hbl (by simp) rfl rfl
  | readPrim hbl he => exact .read hbl (by simp) rfl rfl
  | delay p hs => exact .keep rfl rfl rfl
  | startStall hc hs =>
    exact .stall hb hq hc (hp.not_blocked (by simp)) (by simp) rfl
  | sendAccepted hc hs =>
    exact .access hb hq hc (hp.not_blocked (by simp)) (by simp) rfl
  | sendRefused hc => exact .access hb hq hc rfl (by simp) rfl
  | sendAtomic hc hs =>
    exact .access hb hq hc (hp.not_blocked (by simp)) (by simp) rfl
  | stats p hne hs =>
    exact .prim hq (hp.not_blocked (by simp)) (by simp) rfl
  | rewind hr hs =>
    -- the trace goes back to where the entry starts
    refine .inl ⟨rfl, ?_⟩
    have hnb := hp.not_blocked (by simp)
    have hn : s.rewound.ticking.pending .tick = false := hnb
    rw [todo_of_not_pending hn (by simp), todo_of_pending (s := s) rfl]
    rfl
  | response hk hf hn ht => exact .inl ⟨rfl, rfl⟩
  | responseTick hk hf hn ht hbl =>
    rcases hp.blocked hbl with rfl | rfl | rfl
    · exact .keep hbl hbl rfl
    · exact .keep rfl hbl rfl
    · exact .keep hbl hbl rfl
  | retried hr hbl ht =>
    obtain rfl := hp.retry.mp (by simp [hr])
    exact .idle rfl hbl (by simp) (by simp) rfl
  | retriedBlocked hr hbl =>
    obtain rfl := hp.retry.mp (by simp [hr])
    exact absurd hbl (by simp [hp.not_blocked (by simp)])

theorem EngineMove.advances (h : EngineMove ℓ s e ℓ' s') (hp : Placed s ℓ) (hb : Booked s ℓ)
    (hq : Parsed s ℓ) : Advances s ℓ e ℓ' s' := by
  cases h with
  | own h => exact h.advances hp hb hq
  | fireTick hs =>
    obtain rfl := hp.tick.mp hs
    exact .inl ⟨rfl, rfl⟩
  | halt hbl hr =>
    -- `EOF` is not an entry, so nothing is left
    have heof : entries s.traceFh = [] := by
      apply entries_of_error (f := .invalidToken "EOF")
      rw [readEntry_of_readNextToken hr (by decide)]
      rfl
    refine .inl ⟨rfl, ?_⟩
    rw [todo_of_not_pending (s := s) (ℓ := .awake) hbl (by simp), heof]
    rfl
  | finish p hs clear hclear =>
    have hnb := hp.not_blocked (by simp)
    rcases hclear with rfl | rfl | rfl
    all_goals exact .prim hq hnb (by simp) rfl
  | queueUp a | arrive a | sleep => exact .prim hq rfl (by simp) rfl
  | queueWait | requeue _ => exact .keep rfl rfl rfl
  | resume hℓ hs =>
    rcases hℓ with ⟨a, rfl⟩ | ⟨a, rfl⟩ | rfl
    all_goals
      have hnb := hp.not_blocked (by simp)
      exact .idle rfl hnb (by simp) (by simp) rfl

structure Ordered (hist : List Effect) (s : TRE) (ℓ : Loc) : Prop where
  order : ∃ done, entries s.trace = done ++ entries (s.todo ℓ) ∧ List.Forall₂ Realises hist done
  exclusive : CleanTrace s.trace →
    Exclusive s ℓ ∧ ∀ eff ∈ hist, ∀ q ∈ eff.out, q.blking = false

theorem EngineMove.trace_eq (h : EngineMove ℓ s e ℓ' s') : s'.trace = s.trace := by
  cases h with
  | own h => cases h <;> rfl
  | finish p hs clear hclear => rcases hclear with rfl | rfl | rfl <;> rfl
  | _ => rfl

theorem EngineMove.out_nonblocking {eff : Effect} (h : EngineMove ℓ s (some eff) ℓ' s')
    (hx : Exclusive s ℓ) : ∀ q ∈ eff.out, q.blking = false := by
  cases h with
  | own h =>
    cases h with
    | startStall hc hs => exact hx.outstanding_ready
    | sendAccepted hc hs => exact hx.outstanding_ready
    | sendRefused hc => exact hx.outstanding_ready
    | sendAtomic hc hs => exact hx.outstanding_ready
    | stats p hne hs => exact nofun
  | _ => exact nofun

theorem EngineMove.ordered {hist : List Effect} (h : EngineMove ℓ s e ℓ' s') (hp : Placed s ℓ)
    (hb : Booked s ℓ) (hq : Parsed s ℓ) (ho : Ordered hist s ℓ) :
    Ordered (hist ++ e.toList) s' ℓ' where
  order := by
    obtain ⟨done, hd, hr⟩ := ho.order
    rw [h.trace_eq, hd]
    rcases h.advances hp hb hq with ⟨rfl, he⟩ | ⟨eff, ent, rfl, he, hreal⟩
    · exact ⟨done, by rw [he], by simpa using hr⟩
    · refine ⟨done ++ [ent], by rw [he]; simp, ?_⟩
      exact List.rel_append hr (.cons hreal .nil)
  exclusive hc := by
    rw [h.trace_eq] at hc
    obtain ⟨hx, hout⟩ := ho.exclusive hc
    refine ⟨h.exclusive hc hp hb hq hx, ?_⟩
    intro eff heff
    rcases List.mem_append.mp heff with heff | heff
    · exact hout eff heff
    · obtain rfl : e = some eff := by simpa using heff
      exact h.out_nonblocking hx

end HetSim.Replay
