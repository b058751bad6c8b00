import HetSim.EventQueue.Queue

/-!
# What insertion and removal do to the links

Both change the pointer to one bin, the `nextBin` of the bin before it or the head, and pointers
inside that bin. Those of events that are not on top may be stale; `Linked` ignores them.
-/

namespace HetSim.EventQueue
open Checked Chains Stacks List Function

universe u
variable {E : Type u} {s : State E} {event : E} {l : List E} {bins pre post : List (E × List E)}

def State.key (s : State E) (e : E) : ℕ ×ₗ ℤ := toLex (s.when e, s.priority e)

theorem lt_iff (l r : E) : lt s l r = true ↔ s.key l < s.key r := by
  simp [lt, State.key, Prod.Lex.toLex_lt_toLex]

theorem le_iff (l r : E) : le s l r = true ↔ s.key l ≤ s.key r := by
  simp [le, State.key, Prod.Lex.toLex_le_toLex]

theorem eq_iff (l r : E) : eq s l r = true ↔ s.key l = s.key r := by
  simp [eq, State.key]

structure Linked (k : Links E) (bins : List (E × List E)) : Prop where
  between : Chain k.nextBin k.head (tops bins) none
  inside : ∀ x ∈ bins, Chain k.nextInBin (k.nextInBin x.1) x.2 none

/-! ## The loops -/

theorem walk_eq (event prev : E) (n : ℕ) {curr : Option E}
    (hc : Chain s.nextBin curr (tops bins) none)
    (hs : bins.Pairwise (fun x y => s.key x.1 < s.key y.1)) (hn : bins.length < n) :
    ∃ pre post, bins = pre ++ post ∧ (∀ x ∈ pre, s.key x.1 < s.key event) ∧
      (∀ x ∈ post, s.key event ≤ s.key x.1) ∧
      walk s event n prev curr = .ok ((prev :: tops pre).getLast (by simp), (tops post).head?) := by
  induction bins generalizing prev n curr with
  | nil =>
    cases n with
    | zero => exact absurd hn (Nat.not_lt_zero _)
    | succ n =>
      cases hc
      exact ⟨[], [], rfl, by simp, by simp, rfl⟩
  | cons x bins ih =>
    cases n with
    | zero => exact absurd hn (Nat.not_lt_zero _)
    | succ n =>
      obtain ⟨hx, hs⟩ := pairwise_cons.mp hs
      cases hc.1
      by_cases hlt : s.key x.1 < s.key event
      · obtain ⟨pre, post, rfl, hpre, hpost, hwalk⟩ :=
          ih x.1 n hc.2 hs (by simpa using hn)
        refine ⟨x :: pre, post, rfl, ?_, hpost, ?_⟩
        · intro y hy
          rcases mem_cons.mp hy with rfl | hy
          · exact hlt
          · exact hpre y hy
        · rw [walk, if_pos ((lt_iff _ _).mpr hlt), hwalk]
          rfl
      · refine ⟨[], x :: bins, rfl, by simp, ?_, ?_⟩
        · intro y hy
          rcases mem_cons.mp hy with rfl | hy
          · exact not_lt.mp hlt
          · exact (not_lt.mp hlt).trans (hx y hy).le
        · rw [walk, if_neg (fun h => hlt ((lt_iff _ _).mp h))]
          rfl

variable {b : List E} {x : E × List E} {t : E}

theorem find_eq [DecidableEq E] (curr : E) {n : ℕ} {next : Option E}
    (hc : Chain s.nextInBin next b none) (he : event ∈ b) (hn : b.length ≤ n) :
    ∃ b₁ b₂, b = b₁ ++ event :: b₂ ∧ event ∉ b₁ ∧
      find s event n curr next = .ok ((curr :: b₁).getLast (by simp)) := by
  induction b generalizing curr n next with
  | nil => exact absurd he not_mem_nil
  | cons a b ih =>
    cases n with
    | zero => exact absurd hn (Nat.not_succ_le_zero _)
    | succ n =>
      cases hc.1
      by_cases hea : event = a
      · subst hea
        exact ⟨[], b, rfl, not_mem_nil, by rw [find, if_pos rfl]; rfl⟩
      · have heb : event ∈ b := (mem_cons.mp he).resolve_left hea
        obtain ⟨b₁, b₂, rfl, hb₁, hfind⟩ := ih a hc.2 heb (Nat.le_of_succ_le_succ hn)
        refine ⟨a :: b₁, b₂, rfl, ?_, ?_⟩
        · rw [mem_cons, not_or]
          exact ⟨hea, hb₁⟩
        · rw [find, if_neg hea, hfind]
          rfl

/-! ## The pointer to a bin -/

section Redirect

variable [DecidableEq E] {k : Links E} {before after : List E} {x m : Option E}

def Links.redirect (k : Links E) (before : List E) (x : Option E) : Links E :=
  match before.getLast? with
  | none => { k with head := x }
  | some prev => { k with nextBin := update k.nextBin prev x }

theorem redirect_concat (prev : E) : k.redirect (before ++ [prev]) x =
    { k with nextBin := update k.nextBin prev x } := by
  simp [Links.redirect]

theorem redirect_nextInBin : (k.redirect before x).nextInBin = k.nextInBin := by
  cases before using List.reverseRecOn with
  | nil => rfl
  | append_singleton before prev => rw [redirect_concat]

theorem redirect_chain (hb : Chain k.nextBin k.head before m) (ha : Chain k.nextBin x after none)
    (hnd : (before ++ after).Nodup) :
    Chain (k.redirect before x).nextBin (k.redirect before x).head (before ++ after) none := by
  cases before using List.reverseRecOn with
  | nil => exact ha
  | append_singleton before prev =>
    rw [redirect_concat]
    have hprev : prev ∉ before := by
      have hnd' := hnd.of_append_left
      rw [nodup_append] at hnd'
      exact fun hmem => hnd'.2.2 prev hmem prev (by simp) rfl
    have hafter : prev ∉ after := by
      rw [nodup_append] at hnd
      exact fun hmem => hnd.2.2 prev (by simp) prev hmem rfl
    exact (hb.redirect hprev x).append (ha.update hafter x)

end Redirect

section Equations

variable [DecidableEq E] [Fintype E]

/-- The bins before the event are skipped, and the event goes in front of the others or on
top of the first of them. -/
theorem insert_eq (event : E) (hL : Linked s.toLinks bins)
    (hs : bins.Pairwise (fun x y => s.key x.1 < s.key y.1)) (hcard : bins.length ≤ Fintype.card E) :
    ∃ pre post, bins = pre ++ post ∧ (∀ x ∈ pre, s.key x.1 < s.key event) ∧
      (∀ x ∈ post, s.key event ≤ s.key x.1) ∧
      insert s event = .ok
        ((insertBefore s event (tops post).head?).redirect (tops pre) (some event)) := by
  cases bins with
  | nil =>
    refine ⟨[], [], rfl, by simp, by simp, ?_⟩
    rw [insert, show s.head = none from hL.between]
    rfl
  | cons x rest =>
    have hhead : s.head = some x.1 := hL.between.1
    obtain ⟨hx, hrest⟩ := pairwise_cons.mp hs
    by_cases hle : s.key event ≤ s.key x.1
    · refine ⟨[], x :: rest, rfl, by simp, fun y hy => ?_, ?_⟩
      · rcases mem_cons.mp hy with rfl | hy
        · exact hle
        · exact hle.trans (hx y hy).le
      · rw [insert, hhead]
        simp only [if_pos ((le_iff _ _).mpr hle)]
        rfl
    · obtain ⟨pre, post, rfl, hpre, hpost, hwalk⟩ :=
        walk_eq event x.1 (Fintype.card E + 1) hL.between.2 hrest (by simp at hcard; omega)
      refine ⟨x :: pre, post, rfl, fun y hy => ?_, hpost, ?_⟩
      · rcases mem_cons.mp hy with rfl | hy
        · exact not_le.mp hle
        · exact hpre y hy
      · rw [insert, hhead]
        simp only [if_neg (fun h => hle ((le_iff _ _).mp h)), hwalk]
        rw [ok_bind, Links.redirect]
        simp [tops, List.getLast?_eq_some_getLast]

theorem remove_eq (hL : Linked s.toLinks bins)
    (hs : bins.Pairwise (fun x y => s.key x.1 < s.key y.1)) (hcard : bins.length ≤ Fintype.card E)
    (hx : x ∈ bins) (hkey : s.key x.1 = s.key event) :
    ∃ pre post, bins = pre ++ x :: post ∧ remove s event = do
      let (links, top) ← removeItem s event x.1
      return links.redirect (tops pre) top := by
  cases bins with
  | nil => exact absurd hx not_mem_nil
  | cons y rest =>
    have hhead : s.head = some y.1 := hL.between.1
    obtain ⟨hy, hrest⟩ := pairwise_cons.mp hs
    rcases mem_cons.mp hx with rfl | hx
    · refine ⟨[], rest, rfl, ?_⟩
      rw [remove, hhead]
      simp only [if_pos ((eq_iff _ _).mpr hkey)]
      rfl
    · have hne : ¬ eq s y.1 event = true := by
        rw [eq_iff, ← hkey]
        exact (hy x hx).ne
      obtain ⟨pre, post, rfl, hpre, hpost, hwalk⟩ :=
        walk_eq event y.1 (Fintype.card E + 1) hL.between.2 hrest (by simp at hcard; omega)
      -- The bin of the event is the first one that does not come before it.
      obtain ⟨post, rfl⟩ : ∃ post', post = x :: post' := by
        rcases mem_append.mp hx with hx | hx
        · exact absurd hkey (hpre x hx).ne
        · cases post with
          | nil => exact absurd hx not_mem_nil
          | cons z post =>
            rcases mem_cons.mp hx with rfl | hx
            · exact ⟨post, rfl⟩
            · have hz := (pairwise_cons.mp (pairwise_append.mp hrest).2.1).1 x hx
              exact absurd (hpost z (mem_cons_self ..)) (not_le.mpr (hkey ▸ hz))
      refine ⟨y :: pre, post, rfl, ?_⟩
      rw [remove, hhead]
      simp only [if_neg hne, hwalk, ok_bind, tops, map_cons, List.head?_cons, demand, require,
        if_pos ((eq_iff _ _).mpr hkey)]
      simp [Links.redirect, List.getLast?_eq_some_getLast]

end Equations

section Insert

variable [DecidableEq E] {k : Links E}

theorem Linked.inside_update {a : E} (hL : Linked k bins) (hx : x ∈ bins)
    (ha : a ∉ x.1 :: x.2) (v : Option E) :
    Chain (update k.nextInBin a v) (update k.nextInBin a v x.1) x.2 none := by
  rw [mem_cons, not_or] at ha
  rw [update_of_ne (Ne.symm ha.1)]
  exact (hL.inside x hx).update ha.2 v

theorem insertBefore_new (hpost : ∀ x ∈ post, s.key event < s.key x.1) :
    insertBefore s event (tops post).head? =
      ⟨s.head, update s.nextBin event (tops post).head?,
        update s.nextInBin event none⟩ := by
  cases post with
  | nil => rfl
  | cons x post =>
    simp only [insertBefore, tops, map_cons, List.head?_cons,
      if_pos ((lt_iff _ _).mpr (hpost x (mem_cons_self ..)))]

theorem insertBefore_on (ht : s.key t = s.key event) :
    insertBefore s event (some t) =
      ⟨s.head, update s.nextBin event (s.nextBin t),
        update s.nextInBin event (some t)⟩ := by
  have hnot : ¬ lt s event t = true := by
    rw [lt_iff, ht]
    exact lt_irrefl _
  simp only [insertBefore, if_neg hnot]

theorem linked_new (hL : Linked s.toLinks (pre ++ post)) (he : event ∉ elems (pre ++ post))
    (hnd : (elems (pre ++ (event, []) :: post)).Nodup)
    (hpost : ∀ x ∈ post, s.key event < s.key x.1) :
    Linked ((insertBefore s event (tops post).head?).redirect (tops pre) (some event))
      (pre ++ (event, []) :: post) := by
  have hchain := hL.between
  rw [tops_append] at hchain
  obtain ⟨m, hpre, hrest⟩ := chain_append.mp hchain
  have hnot : ∀ a ∈ tops (pre ++ post), a ≠ event := by
    rintro a ha rfl
    exact he ((tops_sublist _).subset ha)
  rw [insertBefore_new hpost]
  refine ⟨?_, fun x hx => ?_⟩
  · rw [tops_append]
    refine redirect_chain (hpre.update (fun h => hnot event ?_ rfl) _) ⟨rfl, ?_⟩ ?_
    · rw [tops_append]
      exact mem_append_left _ h
    · simp only [update_self]
      refine Chain.update ?_ (fun h => hnot event ?_ rfl) _
      · rw [← hrest.head_eq]
        exact hrest
      · rw [tops_append]
        exact mem_append_right _ h
    · rw [← tops_append]
      exact hnd.sublist (tops_sublist _)
  · rw [redirect_nextInBin]
    rcases eq_or_ne x (event, []) with rfl | hne
    · simp [chain_nil]
    · have hx' : x ∈ pre ++ post := by
        simp only [mem_append, mem_cons, hne, false_or] at hx ⊢
        exact hx
      exact hL.inside_update hx' (fun h => he (mem_elems hx' h)) none

theorem linked_on (hL : Linked s.toLinks (pre ++ (t, b) :: post))
    (he : event ∉ elems (pre ++ (t, b) :: post))
    (hnd : (elems (pre ++ (event, t :: b) :: post)).Nodup) (ht : s.key t = s.key event) :
    Linked ((insertBefore s event (some t)).redirect (tops pre) (some event))
      (pre ++ (event, t :: b) :: post) := by
  have hchain := hL.between
  rw [tops_append] at hchain
  obtain ⟨m, hpre, hmt, hrest⟩ := chain_append.mp hchain
  have hnot : ∀ a ∈ elems (pre ++ (t, b) :: post), a ≠ event := by
    rintro a ha rfl
    exact he ha
  have htops : event ∉ tops pre ++ t :: tops post := by
    intro h
    refine hnot event ((tops_sublist _).subset ?_) rfl
    rw [tops_append]
    exact h
  rw [mem_append, mem_cons, not_or, not_or] at htops
  rw [insertBefore_on ht]
  refine ⟨?_, fun x hx => ?_⟩
  · rw [tops_append]
    refine redirect_chain (hpre.update htops.1 _) ⟨rfl, ?_⟩ ?_
    · simp only [update_self]
      exact hrest.update htops.2.2 _
    · rw [← tops_append]
      exact hnd.sublist (tops_sublist _)
  · rw [redirect_nextInBin]
    have hold : (t, b) ∈ pre ++ (t, b) :: post := by simp
    rcases eq_or_ne x (event, t :: b) with rfl | hne
    · simp only [update_self]
      exact ⟨rfl, hL.inside_update hold (fun h => he (mem_elems hold h)) _⟩
    · have hx' : x ∈ pre ++ (t, b) :: post := by
        simp only [mem_append, mem_cons, hne, false_or] at hx ⊢
        tauto
      exact hL.inside_update hx' (fun h => he (mem_elems hx' h)) _

theorem insert_spec [Fintype E] (hL : Linked s.toLinks bins) (hA : Arranged s.key l bins)
    (hl : l.Nodup) (he : event ∉ l) :
    ∃ links bins', insert s event = .ok links ∧ Linked links bins' ∧
      Arranged s.key (event :: l) bins' := by
  obtain ⟨pre, post, rfl, hpre, hpost, hins⟩ := insert_eq event hL hA.sorted (hA.length_le hl)
  have he' : event ∉ elems (pre ++ post) := fun h => he (hA.mem_iff.mp h)
  have hl' : (event :: l).Nodup := nodup_cons.mpr ⟨he, hl⟩
  by_cases hnew : ∀ x ∈ post, s.key event < s.key x.1
  · have hA' := hA.push_new hpre hnew
    exact ⟨_, _, hins, linked_new hL he' (hA'.nodup hl') hnew, hA'⟩
  · cases post with
    | nil => exact absurd (by simp) hnew
    | cons x post =>
      -- The keys increase, so it is the first bin that has the key of the event.
      have hkey : s.key x.1 = s.key event := by
        refine le_antisymm (not_lt.mp fun hlt => hnew fun y hy => ?_) (hpost x (mem_cons_self ..))
        rcases mem_cons.mp hy with rfl | hy
        · exact hlt
        · exact hlt.trans ((pairwise_cons.mp (pairwise_append.mp hA.sorted).2.1).1 y hy)
      have hA' := hA.push_on hkey
      exact ⟨_, _, hins, linked_on hL he' (hA'.nodup hl') hkey, hA'⟩

end Insert

section Remove

variable [DecidableEq E] {t : E} {b : List E}

theorem removed_last (hL : Linked s.toLinks (pre ++ (t, []) :: post))
    (hnd : (elems (pre ++ post)).Nodup) :
    Linked (s.toLinks.redirect (tops pre) (s.nextBin t)) (pre ++ post) := by
  have hchain := hL.between
  rw [tops_append] at hchain
  obtain ⟨m, hpre, hmt, hrest⟩ := chain_append.mp hchain
  refine ⟨?_, fun x hx => ?_⟩
  · rw [tops_append]
    refine redirect_chain hpre hrest ?_
    rw [← tops_append]
    exact hnd.sublist (tops_sublist _)
  · rw [redirect_nextInBin]
    refine hL.inside x ?_
    rw [mem_append, mem_cons]
    exact (mem_append.mp hx).imp_right .inr

theorem removed_top {n : E} (hL : Linked s.toLinks (pre ++ (t, n :: b) :: post))
    (hnd : (elems (pre ++ (n, b) :: post)).Nodup) :
    Linked (Links.redirect { s.toLinks with nextBin := update s.nextBin n (s.nextBin t) }
      (tops pre) (some n)) (pre ++ (n, b) :: post) := by
  have hchain := hL.between
  rw [tops_append] at hchain
  obtain ⟨m, hpre, hmt, hrest⟩ := chain_append.mp hchain
  have hnodup : (tops pre ++ n :: tops post).Nodup := by
    have h := hnd.sublist (tops_sublist _)
    rwa [tops_append] at h
  obtain ⟨-, hpost, hcross⟩ := nodup_append.mp hnodup
  refine ⟨?_, fun x hx => ?_⟩
  · rw [tops_append]
    refine redirect_chain (hpre.update (fun h => hcross n h n (mem_cons_self ..) rfl) _)
      ⟨rfl, ?_⟩ hnodup
    simp only [update_self]
    exact hrest.update (nodup_cons.mp hpost).1 _
  · rw [redirect_nextInBin]
    rcases eq_or_ne x (n, b) with rfl | hne
    · exact (hL.inside (t, n :: b) (by simp)).2
    · refine hL.inside x ?_
      simp only [mem_append, mem_cons, hne, false_or] at hx ⊢
      tauto

theorem removed_inside {b₁ b₂ : List E}
    (hL : Linked s.toLinks (pre ++ (t, b₁ ++ event :: b₂) :: post))
    (hnd : (elems (pre ++ (t, b₁ ++ event :: b₂) :: post)).Nodup) :
    Linked (Links.redirect ⟨s.head, s.nextBin,
        update s.nextInBin ((t :: b₁).getLast (by simp)) (s.nextInBin event)⟩
      (tops pre) (some t)) (pre ++ (t, b₁ ++ b₂) :: post) := by
  have hchain := hL.between
  rw [tops_append] at hchain
  obtain ⟨m, hpre, hmt, hrest⟩ := chain_append.mp hchain
  have hsplit (l : List E) :
      t :: (b₁ ++ l) = (t :: b₁).dropLast ++ (t :: b₁).getLast (by simp) :: l := by
    rw [← singleton_append (l := l), ← append_assoc, dropLast_append_getLast,
      cons_append]
  have hbin : Chain s.nextInBin (some t) (t :: (b₁ ++ event :: b₂)) none :=
    ⟨rfl, hL.inside (t, b₁ ++ event :: b₂) (by simp)⟩
  have hstack : (t :: (b₁ ++ event :: b₂)).Nodup := (nodup_flatMap.mp hnd).1 (t, _) (by simp)
  refine ⟨?_, fun x hx => ?_⟩
  · rw [tops_append]
    refine redirect_chain hpre ⟨rfl, hrest⟩ ?_
    have h := hnd.sublist (tops_sublist _)
    rwa [tops_append] at h
  · rw [redirect_nextInBin]
    rcases eq_or_ne x (t, b₁ ++ b₂) with rfl | hne
    · rw [hsplit] at hbin hstack
      have hout := hbin.unlink hstack
      rw [← hsplit] at hout
      exact hout.2
    · have hx' : x ∈ pre ++ post := by
        simp only [mem_append, mem_cons, hne, false_or] at hx ⊢
        exact hx
      have hmem : (t :: b₁).getLast (by simp) ∈ t :: (b₁ ++ event :: b₂) := by
        rw [← cons_append]
        exact mem_append_left _ (getLast_mem _)
      refine hL.inside_update ?_ (not_mem_around hnd hmem hx') _
      rw [mem_append, mem_cons]
      exact (mem_append.mp hx').imp_right .inr

theorem removeItem_spec [Fintype E] (hL : Linked s.toLinks (pre ++ (t, b) :: post))
    (hnd : (elems (pre ++ (t, b) :: post)).Nodup)
    (hnd' : (elems (pre ++ stackOf ((t :: b).erase event) ++ post)).Nodup) (he : event ∈ t :: b) :
    ∃ links top, removeItem s event t = .ok (links, top) ∧
      Linked (links.redirect (tops pre) top) (pre ++ stackOf ((t :: b).erase event) ++ post) := by
  have hbin : Chain s.nextInBin (s.nextInBin t) b none := hL.inside (t, b) (by simp)
  unfold removeItem
  rcases eq_or_ne event t with rfl | hne
  · rw [erase_cons_head] at hnd' ⊢
    rw [if_pos rfl]
    cases b with
    | nil =>
      rw [show s.nextInBin event = none from hbin]
      refine ⟨_, _, rfl, ?_⟩
      simpa [stackOf] using removed_last hL (by simpa [stackOf] using hnd')
    | cons n b =>
      rw [show s.nextInBin event = some n from hbin.1]
      refine ⟨_, _, rfl, ?_⟩
      simpa [stackOf] using removed_top hL (by simpa [stackOf] using hnd')
  · have heb : event ∈ b := (mem_cons.mp he).resolve_left hne
    have hcard : b.length ≤ Fintype.card E + 1 := by
      have hstack : (t :: b).Nodup := (nodup_flatMap.mp hnd).1 (t, b) (by simp)
      have hle := (nodup_cons.mp hstack).2.length_le_card
      omega
    obtain ⟨b₁, b₂, rfl, hb₁, hfind⟩ := find_eq t hbin heb hcard
    rw [if_neg hne, hfind, ok_bind]
    refine ⟨_, _, rfl, ?_⟩
    have herase : (t :: (b₁ ++ event :: b₂)).erase event = t :: (b₁ ++ b₂) := by
      rw [erase_cons_tail (by simpa using hne.symm), erase_append_right _ hb₁,
        erase_cons_head]
    rw [herase]
    simpa [stackOf] using removed_inside hL hnd

theorem remove_spec [Fintype E] (hL : Linked s.toLinks bins) (hA : Arranged s.key l bins)
    (hl : l.Nodup) (he : event ∈ l) :
    ∃ links bins', remove s event = .ok links ∧ Linked links bins' ∧
      Arranged s.key (l.erase event) bins' := by
  obtain ⟨x, hx, hkey⟩ := hA.cover event he
  have hmem : event ∈ x.1 :: x.2 := by
    rw [hA.stack x hx]
    simp [he, hkey]
  obtain ⟨pre, post, rfl, hrem⟩ := remove_eq hL hA.sorted (hA.length_le hl) hx hkey
  have hA' := hA.erase hkey hl
  obtain ⟨links, top, hitem, hlinked⟩ :=
    removeItem_spec hL (hA.nodup hl) (hA'.nodup (hl.erase event)) hmem
  refine ⟨_, _, ?_, hlinked, hA'⟩
  rw [hrem, hitem]
  rfl

end Remove

end HetSim.EventQueue
