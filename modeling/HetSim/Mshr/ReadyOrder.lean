import HetSim.Mshr.Bookkeeping

/-!
# The order of the ready list

The ready list is in the order of the ready times as long as no entry is delayed past the one
behind it: `delay` looks for a place from the entry itself on, and finds the one it has.
-/

namespace HetSim.Mshr
open Address (Addr)
open Checked Handles Memory Runs List MSHRQueue

namespace MSHRQueue

variable {numEntries : ℕ} (q : MSHRQueue numEntries)

def getNext (curTick : Tick) : Option (Fin numEntries) :=
  match q.readyList with
  | [] => none
  | node :: _ => if curTick < q.readyTime node.value then none else some node.value

def MaxTick : Tick := 2 ^ 64 - 1

def nextReadyTime : Tick :=
  match q.readyList with
  | [] => MaxTick
  | node :: _ => q.readyTime node.value

def readyTimes : List Tick := (values q.readyList).map q.readyTime

def Sorted : Prop := q.readyTimes.Pairwise (· ≤ ·)

def behind (e : Fin numEntries) : Option (Fin numEntries) :=
  (((values q.readyList).dropWhile (· ≠ e)).drop 1).head?

end MSHRQueue

def Op.keepsReadyTime : Op → Bool
  | .promoteDeferredTargets _ => false
  | _ => true

/-- No entry is delayed past the one behind it. A register that waits in the ready list is not
given the ready time of a deferred target. -/
def MSHRQueue.Orderly {numEntries : ℕ} (q : MSHRQueue numEntries) : Call numEntries → Prop
  | .delay e curTick delayTicks => (q.behind e).all (curTick + delayTicks ≤ q.readyTime ·)
  | .does e op => q.serving e ∨ op.keepsReadyTime
  | .moveToFront _ | .forceDeallocateTarget _ _ => False
  | .allocate _ _ _ _ _ _ | .markInService _ _ | .markPending _ | .deallocate _ => True

instance {numEntries : ℕ} (q : MSHRQueue numEntries) (c : Call numEntries) :
    Decidable (q.Orderly c) := by
  cases c <;> (unfold MSHRQueue.Orderly; infer_instance)

section Lists

variable {α : Type*} {f g : α → ℕ} {l pre post : List α} {a : α}

theorem pairwise_insert {p : ℕ} (h : (l.map f).Pairwise (· ≤ ·))
    (hbefore : ∀ x ∈ l.take p, f x ≤ f a) (hafter : ∀ x ∈ l.drop p, f a ≤ f x) :
    ((l.take p ++ a :: l.drop p).map f).Pairwise (· ≤ ·) := by
  rw [← take_append_drop p l, map_append, pairwise_append] at h
  obtain ⟨htake, hdrop, hcross⟩ := h
  rw [map_append, pairwise_append, map_cons, pairwise_cons]
  refine ⟨htake, ⟨?_, hdrop⟩, ?_⟩
  · intro t ht
    obtain ⟨x, hx, rfl⟩ := mem_map.mp ht
    exact hafter x hx
  · intro s hs t ht
    rcases mem_cons.mp ht with rfl | ht
    · obtain ⟨x, hx, rfl⟩ := mem_map.mp hs
      exact hbefore x hx
    · exact hcross s hs t ht

theorem pairwise_insert_findIdx (h : (l.map f).Pairwise (· ≤ ·)) :
    ((l.take (l.findIdx (f a < f ·)) ++ a :: l.drop (l.findIdx (f a < f ·))).map f).Pairwise
      (· ≤ ·) := by
  apply pairwise_insert h
  · intro x hx
    obtain ⟨i, hi, rfl⟩ := mem_iff_getElem.mp hx
    rw [length_take] at hi
    rw [getElem_take]
    have hlt : i < l.findIdx (f a < f ·) := by omega
    exact not_lt.mp (of_decide_eq_false (not_of_lt_findIdx hlt))
  · intro x hx
    cases hdrop : l.drop (l.findIdx (f a < f ·)) with
    | nil => exact absurd (hdrop ▸ hx) not_mem_nil
    | cons y rest =>
      have hlt : l.findIdx (f a < f ·) < l.length := by
        by_contra hge
        rw [drop_eq_nil_of_le (not_lt.mp hge)] at hdrop
        exact absurd hdrop nofun
      have hy : f a < f y := by
        have hfound := findIdx_getElem (w := hlt)
        rw [drop_eq_getElem_cons hlt, List.cons.injEq] at hdrop
        rw [hdrop.1] at hfound
        exact of_decide_eq_true hfound
      rw [hdrop] at hx
      rcases mem_cons.mp hx with rfl | hx
      · exact hy.le
      · have hsuffix : ((y :: rest).map f).Pairwise (· ≤ ·) := by
          rw [← hdrop]
          exact h.sublist ((drop_sublist _ _).map f)
        rw [map_cons, pairwise_cons] at hsuffix
        exact hy.le.trans (hsuffix.1 _ (mem_map_of_mem hx))

theorem pairwise_grow_iff (h : ((pre ++ a :: post).map f).Pairwise (· ≤ ·)) (hle : f a ≤ g a)
    (hpre : ∀ x ∈ pre, g x = f x) (hpost : ∀ x ∈ post, g x = f x) :
    ((pre ++ a :: post).map g).Pairwise (· ≤ ·) ↔ ∀ x ∈ post.head?, g a ≤ g x := by
  have hpremap : pre.map g = pre.map f := map_congr_left hpre
  have hpostmap : post.map g = post.map f := map_congr_left hpost
  rw [map_append, pairwise_append, map_cons, pairwise_cons] at h ⊢
  rw [hpremap, hpostmap]
  obtain ⟨hl, ⟨hhead, hr⟩, hcross⟩ := h
  constructor
  · rintro ⟨-, ⟨hgrown, -⟩, -⟩ x hx
    have hx := mem_of_mem_head? hx
    rw [hpost x hx]
    exact hgrown _ (mem_map_of_mem hx)
  · intro hnext
    refine ⟨hl, ⟨?_, hr⟩, ?_⟩
    · cases post with
      | nil => exact nofun
      | cons y rest =>
        have hy := hnext y rfl
        rw [hpost y mem_cons_self] at hy
        rw [map_cons, pairwise_cons] at hr
        rw [map_cons, forall_mem_cons]
        exact ⟨hy, fun t ht => hy.trans (hr.1 t ht)⟩
    · intro s hs t ht
      rcases mem_cons.mp ht with rfl | ht
      · exact (hcross s hs _ mem_cons_self).trans hle
      · exact hcross s hs t (mem_cons_of_mem _ ht)

end Lists

variable {numEntries : ℕ} {q q' : MSHRQueue numEntries} {e : Fin numEntries} {m m' : MSHR}

section Keep

theorem MSHRQueue.Sorted.sublist (h : q.Sorted)
    (hsub : (values q'.readyList).Sublist (values q.readyList))
    (hsame : ∀ x ∈ values q'.readyList, q'.readyTime x = q.readyTime x) : q'.Sorted := by
  rw [MSHRQueue.Sorted, readyTimes, map_congr_left hsame]
  exact List.Pairwise.sublist (hsub.map _) h

theorem setMshr_readyTime_of_ne {x : Fin numEntries} (hx : x ≠ e) :
    (q.setMshr e m).readyTime x = q.readyTime x := by
  simp [readyTime, setMshr, Function.update_of_ne hx]

theorem setMshr_readyTime_self : (q.setMshr e m).readyTime e = m.readyTime := by
  simp [readyTime, setMshr]

theorem setMshr_readyTime_of_eq (h : m.readyTime = q.readyTime e) (x : Fin numEntries) :
    (q.setMshr e m).readyTime x = q.readyTime x := by
  by_cases hx : x = e
  · rw [hx, setMshr_readyTime_self, h]
  · exact setMshr_readyTime_of_ne hx

theorem insertReady_readyTime {p : ℕ} : (q.insertReady p e).readyTime = q.readyTime := by
  have htime := Function.comp_update (fun x : Entry => x.mshr.readyTime) q.entries e
    { q.entries e with readyIter := q.fresh }
  exact htime.trans (Function.update_eq_self e q.readyTime)

theorem insertReady_readyList {p : ℕ} : values (q.insertReady p e).readyList =
    (values q.readyList).take p ++ e :: (values q.readyList).drop p := by
  simp [insertReady, values, map_take, map_drop]

theorem MSHRQueue.Sorted.addToReadyList (h : q.Sorted) : (q.addToReadyList e).Sorted := by
  have hlength : (values q.readyList).length = q.readyList.length := length_map ..
  rw [MSHRQueue.Sorted, MSHRQueue.readyTimes, MSHRQueue.addToReadyList, insertReady_readyTime,
    insertReady_readyList, MSHRQueue.readyBefore]
  split_ifs with hlast
  · apply pairwise_insert h
    · -- the last entry has the greatest ready time
      intro x hx
      have hx := mem_of_mem_take hx
      rcases eq_nil_or_concat (values q.readyList) with hnil | ⟨front, last, hvalues⟩
      · exact absurd (hnil ▸ hx) not_mem_nil
      · have hlast : q.readyTime last ≤ q.readyTime e := by
          rw [concat_eq_append] at hvalues
          have hget : (values q.readyList).getLast? = some last := by rw [hvalues]; simp
          rw [values, List.getLast?_map, Option.map_eq_some_iff] at hget
          obtain ⟨node, hnode, rfl⟩ := hget
          rw [hnode] at hlast
          exact of_decide_eq_true hlast
        have hsorted : ((front ++ [last]).map q.readyTime).Pairwise (· ≤ ·) := by
          rw [← concat_eq_append, ← hvalues]
          exact h
        rw [map_append, pairwise_append] at hsorted
        rw [hvalues, concat_eq_append, mem_append, mem_singleton] at hx
        rcases hx with hx | rfl
        · exact (hsorted.2.2 _ (mem_map_of_mem hx) _ mem_cons_self).trans hlast
        · exact hlast
    · rw [← hlength, drop_length]
      simp
  · have hfind : q.readyList.findIdx (q.readyTime e < q.readyTime ·.value) =
        (values q.readyList).findIdx (q.readyTime e < q.readyTime ·) := by
      rw [values, findIdx_map]
      rfl
    rw [hfind]
    exact pairwise_insert_findIdx h

end Keep

section Calls

variable {pkt pkt' : Packet} {order : ℕ} {readyTime curTick delayTicks : Tick}
  {b allocOnFill : Bool}
  {out : List Target}

theorem apply_readyTime {op : Op} (hop : op.keepsReadyTime) (h : m.apply op = .ok (m', out)) :
    m'.readyTime = m.readyTime := by
  cases apply_applied h with
  | spliced => exact absurd hop Bool.false_ne_true
  | promoted _ hpromote =>
    simp only [MSHR.promoteIf, bind_eq_ok] at hpromote
    obtain ⟨⟨⟩, -, n, -, hpromote⟩ := hpromote
    cases hpromote
    rfl
  | _ => rfl

theorem delay_eq (h : QueueOk q) (hdelay : q.delay e curTick delayTicks = .ok q') :
    ∃ m₁, (q.entries e).mshr.delay curTick delayTicks = .ok m₁ ∧ q' = q.setMshr e m₁ ∧
      e ∈ values q.readyList := by
  simp only [delay, bind_eq_ok] at hdelay
  obtain ⟨m₁, hm₁, hdelay⟩ := hdelay
  have hready : Linked q.fresh (Entry.readyIter ∘ (q.setMshr e m₁).entries) q.readyList := by
    rw [setMshr_readyIter]
    exact h.ready
  refine ⟨m₁, hm₁, ?_⟩
  cases hdrop : (q.setMshr e m₁).readyList.dropWhile
      (·.id ≠ ((q.setMshr e m₁).entries e).readyIter) with
  | nil =>
    rw [hdrop] at hdelay
    cases hdelay
  | cons node rest =>
    have hmem : node ∈ q.readyList := by
      have hnode : node ∈ node :: rest := mem_cons_self
      rw [← hdrop] at hnode
      exact dropWhile_subset _ hnode
    have hid : ((q.setMshr e m₁).entries e).readyIter = node.id := by
      have hhead := List.head?_dropWhile_not
        (fun x : Node (Fin numEntries) => decide (x.id ≠ ((q.setMshr e m₁).entries e).readyIter))
        (q.setMshr e m₁).readyList
      rw [hdrop, List.head?_cons] at hhead
      exact (not_ne_iff.mp (of_decide_eq_false (by simpa using hhead))).symm
    have hvalue : e = node.value := (hready.leads node hmem e).mp hid
    rw [hdrop] at hdelay
    have hzero : (node :: rest).findIdx (fun other =>
        (q.setMshr e m₁).readyTime other.value ≤ (q.setMshr e m₁).readyTime e) = 0 := by
      rw [findIdx_cons, ← hvalue]
      simp
    dsimp only at hdelay
    rw [hzero, if_pos rfl] at hdelay
    cases hdelay
    exact ⟨rfl, hvalue ▸ mem_map_of_mem hmem⟩

theorem delay_sorted_iff (hq : QueueOk q) (h : q.Sorted)
    (hdelay : q.delay e curTick delayTicks = .ok q') :
    q'.Sorted ↔ q.Orderly (.delay e curTick delayTicks) := by
  obtain ⟨m₁, hm₁, rfl, hmem⟩ := delay_eq hq hdelay
  simp only [MSHR.delay, bind_eq_ok, require_eq_ok, pure_eq_ok] at hm₁
  obtain ⟨⟨⟩, hdue, hm₁⟩ := hm₁
  obtain ⟨pre, post, hvalues⟩ := append_of_mem hmem
  have hnodup := hq.ready.nodup
  rw [hvalues, nodup_append, nodup_cons] at hnodup
  obtain ⟨-, ⟨hpost, -⟩, hpre⟩ := hnodup
  have hbehind : q.behind e = post.head? := by
    rw [behind, hvalues, dropWhile_append_of_pos, dropWhile_cons_of_neg,
      drop_one, tail_cons]
    · simp
    · intro x hx
      exact decide_eq_true (hpre x hx e mem_cons_self)
  have hgrown : (q.setMshr e m₁).readyTime e = curTick + delayTicks := by
    rw [setMshr_readyTime_self, ← hm₁]
  have hlist : values (q.setMshr e m₁).readyList = pre ++ e :: post := hvalues
  have hsame : ∀ x ∈ post, (q.setMshr e m₁).readyTime x = q.readyTime x := by
    rintro x hx
    refine setMshr_readyTime_of_ne ?_
    rintro rfl
    exact hpost hx
  rw [MSHRQueue.Sorted, readyTimes, hvalues] at h
  rw [MSHRQueue.Sorted, readyTimes, hlist, pairwise_grow_iff h ?_ ?_ hsame, hgrown,
    MSHRQueue.Orderly, hbehind]
  · cases post with
    | nil => simp
    | cons y rest =>
      have hy := hsame y mem_cons_self
      simp [hy]
  · rw [hgrown]
    exact le_trans hdue (Nat.le_add_right _ _)
  · intro x hx
    exact setMshr_readyTime_of_ne (hpre x hx e mem_cons_self)

theorem call_sorted {c : Call numEntries} (hq : QueueOk q) (h : q.Sorted) (hc : q.Orderly c)
    (hcall : q.call c = .ok q') : q'.Sorted := by
  cases c with
  | allocate blkAddr blkSize pkt whenReady order allocOnFill =>
    simp only [call, bind_eq_ok, pure_eq_ok] at hcall
    obtain ⟨⟨q₁, e⟩, halloc, rfl⟩ := hcall
    rw [allocate] at halloc
    cases hfree : q.freeList with
    | nil =>
      rw [hfree] at halloc
      cases halloc
    | cons e' freeList =>
      rw [hfree] at halloc
      simp only [bind_eq_ok] at halloc
      obtain ⟨⟨⟩, -, m₁, -, halloc⟩ := halloc
      cases halloc
      have htaken : (q.takeFree e freeList m₁).Sorted := by
        refine h.sublist (List.Sublist.refl _) fun x hx => ?_
        have hne : x ≠ e := by
          rintro rfl
          exact (hq.not_mem_of_free hfree).1 (hq.serving_of_mem hx).1
        simp [readyTime, takeFree, Function.update_of_ne hne]
      have hadded := htaken.addToReadyList (e := e)
      exact hadded
  | moveToFront e => exact hc.elim
  | delay e curTick delayTicks => exact (delay_sorted_iff hq h hcall).mpr hc
  | markInService e pendingModifiedResp =>
    simp only [call, markInService, bind_eq_ok, pure_eq_ok] at hcall
    obtain ⟨m₁, hm₁, q₁, herase, rfl⟩ := hcall
    simp only [MSHR.markInService, bind_eq_ok, pure_eq_ok] at hm₁
    obtain ⟨⟨⟩, -, hm₁⟩ := hm₁
    simp only [eraseReady, bind_eq_ok, pure_eq_ok] at herase
    obtain ⟨⟨⟩, -, rfl⟩ := herase
    refine h.sublist (filter_sublist.map _) fun x _ => ?_
    exact setMshr_readyTime_of_eq (by rw [← hm₁]; rfl) x
  | markPending e =>
    simp only [call, markPending, bind_eq_ok, pure_eq_ok] at hcall
    obtain ⟨m₁, hm₁, rfl⟩ := hcall
    simp only [MSHR.markPending, bind_eq_ok, pure_eq_ok] at hm₁
    obtain ⟨⟨⟩, -, hm₁⟩ := hm₁
    refine MSHRQueue.Sorted.addToReadyList (h.sublist (List.Sublist.refl _) fun x _ => ?_)
    exact setMshr_readyTime_of_eq (by rw [← hm₁]; rfl) x
  | forceDeallocateTarget e curTick => exact hc.elim
  | deallocate e =>
    simp only [call, deallocate, bind_eq_ok, pure_eq_ok] at hcall
    obtain ⟨⟨⟩, -, ⟨⟩, -, q₁, hleave, m₁, hm₁, rfl⟩ := hcall
    simp only [MSHR.deallocate, bind_eq_ok, pure_eq_ok] at hm₁
    obtain ⟨⟨⟩, -, ⟨⟩, -, hm₁⟩ := hm₁
    have htime : m₁.readyTime = q₁.readyTime e := by rw [← hm₁]; rfl
    rw [leave] at hleave
    split_ifs at hleave
    · cases hleave
      exact h.sublist (List.Sublist.refl _) fun x _ => setMshr_readyTime_of_eq htime x
    · simp only [eraseReady, bind_eq_ok, pure_eq_ok] at hleave
      obtain ⟨⟨⟩, -, rfl⟩ := hleave
      exact h.sublist (filter_sublist.map _) fun x _ => setMshr_readyTime_of_eq htime x
  | does e op =>
    simp only [call, bind_eq_ok, pure_eq_ok] at hcall
    obtain ⟨⟨⟩, -, ⟨m₁, out⟩, happly, rfl⟩ := hcall
    refine h.sublist (List.Sublist.refl _) fun x hx => ?_
    rcases hc with hserving | hop
    · refine setMshr_readyTime_of_ne ?_
      rintro rfl
      have hidle := (hq.serving_of_mem hx).2
      rw [hserving] at hidle
      cases hidle
    · exact setMshr_readyTime_of_eq (apply_readyTime hop happly) x

end Calls

section Front

theorem MSHRQueue.Sorted.front_le {node : Node (Fin numEntries)}
    {rest : List (Node (Fin numEntries))} (h : q.Sorted) (hlist : q.readyList = node :: rest) :
    ∀ e ∈ values q.readyList, q.readyTime node.value ≤ q.readyTime e := by
  intro e he
  rw [MSHRQueue.Sorted, readyTimes, hlist] at h
  rw [hlist] at he
  simp only [values, map_cons, pairwise_cons] at h he
  rcases mem_cons.mp he with rfl | he
  · exact le_rfl
  · exact h.1 _ (mem_map_of_mem he)

end Front

theorem readyList_sorted {requested reserve : ℕ} {calls : List (Call (requested + reserve))}
    {q : MSHRQueue (requested + reserve)}
    (hcalls : Meets MSHRQueue.call MSHRQueue.Orderly (MSHRQueue.init requested reserve) calls)
    (hrun : run MSHRQueue.call (MSHRQueue.init requested reserve) calls = .ok q) :
    q.readyTimes.Pairwise (· ≤ ·) ∧
    (∀ curTick, (∃ e ∈ values q.readyList, q.readyTime e ≤ curTick) →
      ∃ e ∈ values q.readyList, q.readyTime e ≤ curTick ∧ q.getNext curTick = some e) ∧
    (∀ e ∈ values q.readyList, q.nextReadyTime ≤ q.readyTime e) ∧
    (q.readyList ≠ [] → ∃ e ∈ values q.readyList, q.readyTime e = q.nextReadyTime) := by
  obtain ⟨-, hsorted⟩ := Meets.invariant (P := fun q => QueueOk q ∧ q.Sorted)
    (fun hq hc hcall => ⟨call_ok hq.1 hcall, call_sorted hq.1 hq.2 hc hcall⟩)
    ⟨queueOk_init requested reserve, List.Pairwise.nil⟩ hcalls hrun
  refine ⟨hsorted, ?_⟩
  cases hlist : q.readyList with
  | nil =>
    refine ⟨?_, ?_, ?_⟩
    · rintro curTick ⟨e, he, -⟩
      exact absurd he not_mem_nil
    · intro e he
      exact absurd he not_mem_nil
    · exact fun hne => absurd rfl hne
  | cons node rest =>
    have hfront := hsorted.front_le hlist
    have hmem : node.value ∈ values (node :: rest) := mem_map_of_mem mem_cons_self
    have htime : q.nextReadyTime = q.readyTime node.value := by rw [nextReadyTime, hlist]
    rw [hlist] at hfront
    refine ⟨?_, ?_, fun _ => ⟨node.value, hmem, htime.symm⟩⟩
    · rintro curTick ⟨e, he, hdue⟩
      have hle := (hfront e he).trans hdue
      refine ⟨node.value, hmem, hle, ?_⟩
      simp only [getNext, hlist]
      rw [if_neg (not_lt.mpr hle)]
    · intro e he
      rw [htime]
      exact hfront e he

def putOff (delayTicks : Tick) : List (Call (2 + 0)) :=
  [.allocate 64 64 aRead 3 0 true, .allocate 128 64 { aWrite with addr := 128 } 5 1 true,
    .delay 0 3 delayTicks]

theorem readyList_sorted_putOff : ∃ q : MSHRQueue (2 + 0),
    run MSHRQueue.call (MSHRQueue.init 2 0) (putOff 2) = .ok q ∧ q.readyTimes = [5, 5] ∧
      ∃ e ∈ values q.readyList, q.readyTime e ≤ 5 ∧ q.getNext 5 = some e := by
  have hends : Ends call (init 2 0) (putOff 2)
      (fun q => q.readyTimes = [5, 5] ∧ ∃ e ∈ values q.readyList, q.readyTime e ≤ 5) := by
    decide +kernel
  obtain ⟨q, hrun, htimes, hdue⟩ := hends
  have hcalls : Meets call MSHRQueue.Orderly (init 2 0) (putOff 2) := by
    decide +kernel
  exact ⟨q, hrun, htimes, (readyList_sorted hcalls hrun).2.1 5 hdue⟩

/-- Delayed past the second miss, the first one stays in front of it and hides it. -/
theorem delay_leaves_unsorted : ∃ q : MSHRQueue (2 + 0),
    run MSHRQueue.call (MSHRQueue.init 2 0) (putOff 10) = .ok q ∧ q.readyTimes = [13, 5] ∧
      1 ∈ values q.readyList ∧ q.readyTime 1 ≤ 5 ∧ q.getNext 5 = none ∧ q.nextReadyTime = 13 := by
  have hends : Ends call (init 2 0) (putOff 10) (fun q =>
      q.readyTimes = [13, 5] ∧ 1 ∈ values q.readyList ∧ q.readyTime 1 ≤ 5 ∧ q.getNext 5 = none ∧
        q.nextReadyTime = 13) := by
    decide +kernel
  exact hends

end HetSim.Mshr
