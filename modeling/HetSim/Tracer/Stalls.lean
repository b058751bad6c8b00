import HetSim.Tracer.Runtime

/-!
# Stall cycles in the trace

While a log is open, calls act on the items of the trace and the pending stalls. Every call but
one kind keeps the sum of the two and the cycles asked for in step. The exception writes its own
cycles and drops what is pending.
-/

namespace HetSim.Tracer
open Checked List Function HetSim.Tracer.Runtime Call

variable {cfg : Setup} {r r' : Runtime}

structure Live (cfg : Setup) (r : Runtime) : Prop where
  log : r.isLogOpen = true
  file : r.isOpen cfg.id = true
  counted : r.stallCount = some r.stalls

def Setup.OneType (cfg : Setup) : Prop := cfg.pes.countP (cfg.id ∈ ·) = 1

instance (cfg : Setup) : Decidable cfg.OneType :=
  inferInstanceAs (Decidable (cfg.pes.countP _ = 1))

def Runtime.write (r : Runtime) (id : UInt32) (items : List Item) (pending : Int32) : Runtime :=
  { r with
    file := update r.file id (r.file id ++ items)
    stallCount := some pending }

section Write

variable (r : Runtime) (id : UInt32) (items items' : List Item) (n n' : Int32)

@[simp] theorem write_stalls : (r.write id items n).stalls = n := rfl

@[simp] theorem write_file : (r.write id items n).file id = r.file id ++ items := by
  simp [write]

@[simp] theorem write_write :
    (r.write id items n).write id items' n' = r.write id (items ++ items') n' := by
  simp [write]

theorem setStalls_eq_write : r.setStalls n = r.write id [] n := by
  simp [write, setStalls]

end Write

theorem Live.write (h : Live cfg r) (items : List Item) (n : Int32) :
    Live cfg (r.write cfg.id items n) := ⟨h.log, h.file, rfl⟩

theorem Live.write_nil (h : Live cfg r) : r.write cfg.id [] r.stalls = r := by
  rw [Runtime.write, append_nil, update_eq_self, ← h.counted]

theorem forPes_eq (body : Runtime → Except TraceFault Runtime) (pes : List (List UInt32))
    (h : pes.countP (cfg.id ∈ ·) = 1) (r : Runtime) : forPes cfg body pes r = body r := by
  have hskip : ∀ pes : List (List UInt32), pes.countP (cfg.id ∈ ·) = 0 → ∀ r,
      forPes cfg body pes r = .ok r := by
    intro pes h
    induction pes with
    | nil => exact fun _ => rfl
    | cons ids pes ih =>
      intro r
      by_cases hid : cfg.id ∈ ids
      · simp [hid] at h
      · rw [countP_cons_of_neg (by simpa using hid)] at h
        rw [forPes, if_neg hid]
        exact ih h r
  induction pes with
  | nil => cases h
  | cons ids pes ih =>
    by_cases hid : cfg.id ∈ ids
    · rw [countP_cons_of_pos (by simpa using hid)] at h
      rw [forPes, if_pos hid]
      cases hb : body r with
      | error f => rfl
      | ok r' => exact hskip pes (by omega) r'
    · rw [countP_cons_of_neg (by simpa using hid)] at h
      rw [forPes, if_neg hid]
      exact ih h

theorem registerEntry_eq (h : r.isOpen cfg.id = true) (e : Item) :
    r.registerEntry cfg.id e = .ok
      { r with file := update r.file cfg.id (r.file cfg.id ++ [e]) } := by
  simp only [registerEntry, require, h, if_true, ok_bind]
  rfl

theorem writeStall_eq (h : r.isOpen cfg.id = true) (n : Int32) (deps : List Ptr) :
    writeStall cfg n deps r = .ok (r.write cfg.id [.stall n.toUInt32 deps] 0) := by
  rw [writeStall, registerEntry_eq h, ok_bind]
  rfl

def flushed (pending : Int32) : List Item × Int32 :=
  if pending > 0 then ([.stall pending.toUInt32 []], 0) else ([], pending)

def dependent (n : Int32) (deps : List Ptr) (pending : Int32) : List Item × Int32 :=
  if n > 0 then ([.stall n.toUInt32 deps], 0) else ([], pending)

def Func.items (f : Func) (args : List Arg) : List Item :=
  .intrinsic f args :: (List.replicate f.loadPenalty (.penalty "LDB" args) ++
    List.replicate f.storePenalty (.penalty "STB" args))

section Live

variable (hl : Live cfg r)
include hl

theorem foldlM_register_eq (l : List Item) :
    l.foldlM (fun r e => r.registerEntry cfg.id e) r = .ok (r.write cfg.id l r.stalls) := by
  induction l generalizing r with
  | nil => exact congrArg Except.ok hl.write_nil.symm
  | cons e l ih =>
    rw [foldlM_cons, registerEntry_eq hl.file, ok_bind]
    have hw : { r with file := update r.file cfg.id (r.file cfg.id ++ [e]) } =
        r.write cfg.id [e] r.stalls := by
      rw [write, ← hl.counted]
    rw [hw, ih (hl.write _ _), write_write, write_stalls, singleton_append]

theorem traceIntrinsic_eq (f : Func) (args : List Arg) :
    traceIntrinsic cfg f args r = .ok (r.write cfg.id (f.items args) r.stalls) := by
  have hreg := foldlM_register_eq hl [.intrinsic f args]
  rw [foldlM_cons] at hreg
  simp only [foldlM_nil, bind_pure] at hreg
  rw [traceIntrinsic, if_pos hl.log, hreg, ok_bind, foldlM_register_eq (hl.write _ _), ok_bind,
    foldlM_register_eq ((hl.write _ _).write _ _)]
  simp [Func.items]

variable (hone : cfg.OneType)
include hone

theorem emitStall_eq : emitStall cfg r =
    .ok (r.write cfg.id (flushed r.stalls).1 (flushed r.stalls).2) := by
  rw [emitStall, if_pos hl.log, setStalls_eq_write r cfg.id, hl.write_nil]
  unfold flushed
  by_cases h : r.stalls > 0
  · rw [if_pos h, if_pos h, forPes_eq _ _ hone, writeStall_eq hl.file]
  · rw [if_neg h, if_neg h, hl.write_nil]

theorem emitStallWithDeps_eq (n k : Int32) (d₁ d₂ d₃ : Ptr) :
    emitStallWithDeps cfg n k d₁ d₂ d₃ r = .ok (r.write cfg.id
      (dependent n (collectDeps k d₁ d₂ d₃) r.stalls).1
      (dependent n (collectDeps k d₁ d₂ d₃) r.stalls).2) := by
  rw [emitStallWithDeps, if_pos hl.log, setStalls_eq_write r cfg.id, hl.write_nil]
  unfold dependent
  by_cases h : n > 0
  · rw [if_pos h, if_pos h, forPes_eq _ _ hone, writeStall_eq hl.file]
  · rw [if_neg h, if_neg h, hl.write_nil]

theorem emitAccess_eq (ptr : Ptr) (e : Item) (hp : shouldTranslate cfg.addrSpaces ptr = true) :
    emitAccess cfg ptr e r =
      .ok (r.write cfg.id ((flushed r.stalls).1 ++ [e]) (flushed r.stalls).2) := by
  rw [emitAccess, hl.log, hp, Bool.and_self, if_pos rfl, forPes_eq _ _ hone, emitStall_eq hl hone,
    ok_bind, registerEntry_eq (hl.write _ _).file]
  simp [write]

end Live

def Call.effect (cfg : Setup) (pending : Int32) : Call → List Item × Int32
  | .incrementStalls n k d₁ d₂ d₃ =>
    if k > 0 then
      ((flushed pending).1 ++ (dependent n (collectDeps k d₁ d₂ d₃) (flushed pending).2).1,
        (dependent n (collectDeps k d₁ d₂ d₃) (flushed pending).2).2)
    else ([], Int32.ofInt (pending.toInt + n.toInt))
  | .emitStall => flushed pending
  | .emitStallWithDeps n k d₁ d₂ d₃ => dependent n (collectDeps k d₁ d₂ d₃) pending
  | .emitLoad p pc k d₁ d₂ d₃ =>
    if shouldTranslate cfg.addrSpaces p then
      ((flushed pending).1 ++ [.load p (collectDeps k d₁ d₂ d₃) pc], (flushed pending).2)
    else ([], pending)
  | .emitStore p v pc k d₁ d₂ d₃ =>
    if shouldTranslate cfg.addrSpaces p then
      ((flushed pending).1 ++ [.store p v (collectDeps k d₁ d₂ d₃) pc], (flushed pending).2)
    else ([], pending)
  | .intrinsic f args => (f.items args, pending)

/-- The sum a call may have to keep in an `int`. -/
def Call.Fits (pending : Int32) : Call → Prop
  | .incrementStalls n k _ _ _ =>
    k > 0 ∨ (-2 ^ 31 ≤ pending.toInt + n.toInt ∧ pending.toInt + n.toInt < 2 ^ 31)
  | _ => True

instance (pending : Int32) : (c : Call) → Decidable (c.Fits pending)
  | .incrementStalls _ _ _ _ _ => inferInstanceAs (Decidable (_ ∨ _))
  | .emitStall | .emitStallWithDeps _ _ _ _ _ | .emitLoad _ _ _ _ _ _ | .emitStore _ _ _ _ _ _ _
  | .intrinsic _ _ => .isTrue trivial

theorem call_eq (hl : Live cfg r) (hone : cfg.OneType) (c : Call) :
    call cfg r c = if c.Fits r.stalls
      then .ok (r.write cfg.id (c.effect cfg r.stalls).1 (c.effect cfg r.stalls).2)
      else .error .overflow := by
  cases c with
  | incrementStalls n k d₁ d₂ d₃ =>
    by_cases hk : k > 0
    · rw [if_pos (.inl hk)]
      simp only [call, incrementStalls, if_pos hk, if_pos hl.log, emitStall_eq hl hone, ok_bind,
        emitStallWithDeps_eq (hl.write _ _) hone, write_stalls, write_write, effect]
    · simp only [call, incrementStalls, if_neg hk, if_pos hl.log, addStalls, effect,
        setStalls_eq_write r cfg.id, require]
      by_cases hr : -2 ^ 31 ≤ r.stalls.toInt + n.toInt ∧ r.stalls.toInt + n.toInt < 2 ^ 31
      · rw [if_pos hr, if_pos (.inr hr)]
        rfl
      · have hfit : ¬ Call.Fits r.stalls (.incrementStalls n k d₁ d₂ d₃) := fun h => Or.elim h hk hr
        rw [if_neg hr, if_neg hfit]
        rfl
  | emitStall =>
    refine Eq.trans ?_ (if_pos (by trivial)).symm
    exact emitStall_eq hl hone
  | emitStallWithDeps n k d₁ d₂ d₃ =>
    refine Eq.trans ?_ (if_pos (by trivial)).symm
    exact emitStallWithDeps_eq hl hone n k d₁ d₂ d₃
  | emitLoad p pc k d₁ d₂ d₃ | emitStore p v pc k d₁ d₂ d₃ =>
    refine Eq.trans ?_ (if_pos (by trivial)).symm
    cases hp : shouldTranslate cfg.addrSpaces p with
    | true =>
      simp only [call, emitLoad, emitStore, emitAccess_eq hl hone _ _ hp, effect, hp, if_true]
    | false =>
      simp [call, emitLoad, emitStore, emitAccess, effect, hp, hl.write_nil]
  | intrinsic f args =>
    refine Eq.trans ?_ (if_pos (by trivial)).symm
    exact traceIntrinsic_eq hl f args

def Item.cycles : Item → ℤ
  | .stall n _ => n.toNat
  | _ => 0

def cycles (items : List Item) : ℤ := (items.map Item.cycles).sum

@[simp] theorem cycles_append (l l' : List Item) : cycles (l ++ l') = cycles l + cycles l' := by
  simp [cycles]

def Call.asked : Call → ℤ
  | .incrementStalls n _ _ _ _ | .emitStallWithDeps n _ _ _ _ => n.toInt
  | _ => 0

def asked (calls : List Call) : ℤ := (calls.map Call.asked).sum

def Call.Keeps (pending : ℤ) : Call → Prop
  | .incrementStalls n k _ _ _ => k ≤ 0 ∨ n = 0 ∨ (n > 0 ∧ 0 ≤ pending)
  | .emitStallWithDeps n _ _ _ _ => n = 0 ∨ (n > 0 ∧ pending = 0)
  | _ => True

theorem toUInt32_of_pos {n : Int32} (h : n > 0) : (n.toUInt32.toNat : ℤ) = n.toInt := by
  have hpos : 0 < n.toInt := Int32.lt_iff_toInt_lt.mp h
  have hle : 0 ≤ n := Int32.le_iff_toInt_le.mpr hpos.le
  rw [Int32.toNat_toUInt32_of_le hle]
  exact Int.toNat_of_nonneg hpos.le

theorem flushed_balance (p : Int32) : cycles (flushed p).1 + (flushed p).2.toInt = p.toInt := by
  unfold flushed
  split_ifs with h
  · simp [cycles, Item.cycles, toUInt32_of_pos h]
  · simp [cycles]

theorem flushed_pending (p : Int32) : (flushed p).2.toInt = min p.toInt 0 := by
  unfold flushed
  split_ifs with h
  · have hpos : 0 < p.toInt := Int32.lt_iff_toInt_lt.mp h
    simp [hpos.le]
  · have hle : p.toInt ≤ 0 := not_lt.mp fun hc => h (Int32.lt_iff_toInt_lt.mpr hc)
    simp [hle]

theorem dependent_balance (n : Int32) (deps : List Ptr) (p : Int32) :
    cycles (dependent n deps p).1 + (dependent n deps p).2.toInt = p.toInt + n.toInt ↔
      n = 0 ∨ (n > 0 ∧ p.toInt = 0) := by
  have hzero : n = 0 ↔ n.toInt = 0 := by
    rw [← Int32.toInt_inj]
    rfl
  have hpos : n > 0 ↔ 0 < n.toInt := Int32.lt_iff_toInt_lt
  unfold dependent
  split_ifs with h
  · have hn : 0 < n.toInt := hpos.mp h
    simp only [cycles, Item.cycles, map_cons, map_nil, sum_cons, sum_nil,
      toUInt32_of_pos h, Int32.toInt_zero, hzero, h, true_and]
    omega
  · have hn : ¬ 0 < n.toInt := fun hc => h (hpos.mpr hc)
    simp only [cycles, map_nil, sum_nil, hzero, h, false_and, or_false]
    omega

theorem cycles_func_items (f : Func) (args : List Arg) : cycles (f.items args) = 0 := by
  simp [cycles, Func.items, Item.cycles]

theorem effect_balance (cfg : Setup) (p : Int32) (c : Call) (hfit : c.Fits p) :
    cycles (c.effect cfg p).1 + (c.effect cfg p).2.toInt = p.toInt + c.asked ↔ c.Keeps p.toInt := by
  have hflush := flushed_balance p
  cases c with
  | incrementStalls n k d₁ d₂ d₃ =>
    by_cases hk : k > 0
    · have hdep := dependent_balance n (collectDeps k d₁ d₂ d₃) (flushed p).2
      have hle : ¬ k ≤ 0 := by simpa using hk
      have hmin : (flushed p).2.toInt = 0 ↔ 0 ≤ p.toInt := by
        rw [flushed_pending]
        omega
      simp only [Call.effect, if_pos hk, Call.asked, Call.Keeps, cycles_append, hle, false_or]
      rw [← hmin, ← hdep]
      constructor <;> intro h <;> omega
    · have hle : k ≤ 0 := by simpa using hk
      have hr := hfit.resolve_left hk
      simp only [Call.effect, if_neg hk, Call.asked, Call.Keeps, hle, true_or, iff_true,
        Int32.toInt_ofInt_of_le hr.1 hr.2]
      simp [cycles]
  | emitStall => simpa [Call.effect, Call.asked, Call.Keeps] using hflush
  | emitStallWithDeps n k d₁ d₂ d₃ => exact dependent_balance n _ p
  | emitLoad q pc k d₁ d₂ d₃ | emitStore q v pc k d₁ d₂ d₃ =>
    simp only [Call.effect, Call.asked, Call.Keeps, iff_true, add_zero]
    split_ifs
    · simpa [cycles, Item.cycles] using hflush
    · simp [cycles]
  | intrinsic f args => simp [Call.effect, Call.asked, Call.Keeps, cycles_func_items]

def Runtime.total (r : Runtime) (id : UInt32) : ℤ := cycles (r.file id) + r.stalls.toInt

theorem call_total (hl : Live cfg r) (hone : cfg.OneType) {c : Call} (h : call cfg r c = .ok r') :
    Live cfg r' ∧ (r'.total cfg.id = r.total cfg.id + c.asked ↔ c.Keeps r.stalls.toInt) := by
  rw [call_eq hl hone] at h
  split_ifs at h with hfit
  cases h
  refine ⟨hl.write _ _, ?_⟩
  rw [← effect_balance cfg r.stalls c hfit, total, total, write_file,
    write_stalls, cycles_append]
  constructor <;> intro h <;> omega

def Careful (cfg : Setup) : Runtime → List Call → Prop
  | _, [] => True
  | r, c :: calls => c.Keeps r.stalls.toInt ∧ ∀ r', call cfg r c = .ok r' → Careful cfg r' calls

def Conserves (cfg : Setup) (r : Runtime) (calls : List Call) : Prop :=
  ∀ done r', done <+: calls → Runs.run (call cfg) r done = .ok r' →
    r'.total cfg.id = r.total cfg.id + asked done

theorem conserves_iff_careful (hone : cfg.OneType) {calls : List Call} (hl : Live cfg r)
    (hrun : Runs.run (call cfg) r calls = .ok r') :
    Conserves cfg r calls ↔ Careful cfg r calls := by
  induction calls generalizing r with
  | nil =>
    refine ⟨fun _ => trivial, fun _ done t hd ht => ?_⟩
    rw [prefix_nil.mp hd, Runs.run_nil] at ht
    cases ht
    simp [prefix_nil.mp hd, asked]
  | cons c calls ih =>
    rw [Runs.run_cons, bind_eq_ok] at hrun
    obtain ⟨s, hs, hrun⟩ := hrun
    obtain ⟨hls, hkeep⟩ := call_total hl hone hs
    have ih := ih hls hrun
    constructor
    · intro h
      have hone' := h [c] s (by simp) (by rw [Runs.run_cons, hs]; rfl)
      have hk : s.total cfg.id = r.total cfg.id + c.asked := by simpa [asked] using hone'
      refine ⟨hkeep.mp hk, fun t ht => ?_⟩
      cases hs.symm.trans ht
      refine ih.mp fun done u hd hu => ?_
      have hu' := h (c :: done) u (cons_prefix_cons.mpr ⟨rfl, hd⟩)
        (by rw [Runs.run_cons, hs, ok_bind]; exact hu)
      rw [hu', hk]
      simp [asked, add_assoc]
    · rintro ⟨hk, hrest⟩ done u hd hu
      cases done with
      | nil =>
        cases hu
        simp [asked]
      | cons c' done =>
        obtain ⟨rfl, hd'⟩ := cons_prefix_cons.mp hd
        rw [Runs.run_cons, hs, ok_bind] at hu
        rw [ih.mpr (hrest s hs) done u hd' hu, hkeep.mpr hk]
        simp [asked, add_assoc]

theorem run_live (hone : cfg.OneType) {calls : List Call} (hl : Live cfg r)
    (hrun : Runs.run (call cfg) r calls = .ok r') : Live cfg r' := by
  induction calls generalizing r with
  | nil =>
    cases hrun
    exact hl
  | cons c calls ih =>
    rw [Runs.run_cons, bind_eq_ok] at hrun
    obtain ⟨s, hs, hrun⟩ := hrun
    exact ih (call_total hl hone hs).1 hrun

theorem open_live (cfg : Setup) (r : Runtime) : Live cfg (openTraceLog cfg.id r) :=
  ⟨rfl, by simp [openTraceLog], rfl⟩

theorem open_total (cfg : Setup) (r : Runtime) : (openTraceLog cfg.id r).total cfg.id = 0 := by
  simp [openTraceLog, total, cycles, stalls]

theorem close_eq (hl : Live cfg r) : ∃ r', closeTraceLog cfg.id r = .ok r' ∧
    cycles (r'.file cfg.id) = cycles (r.file cfg.id) := by
  have hreg := registerEntry_eq (r := { r with traceBool := r.traceBool.map fun _ => false })
    hl.file .eof
  rw [closeTraceLog, hreg, ok_bind]
  exact ⟨_, rfl, by simp [cycles, Item.cycles]⟩

/-- Stall cycles are conserved, and all written when the log is closed, exactly if every
call with dependencies finds nothing pending to drop and nothing is pending at the end. -/
theorem stalls_conserved_iff (hone : cfg.OneType) (r₀ : Runtime) (calls : List Call)
    (hrun : Runs.run (call cfg) (openTraceLog cfg.id r₀) calls = .ok r) :
    (∀ done r', done <+: calls → Runs.run (call cfg) (openTraceLog cfg.id r₀) done = .ok r' →
      cycles (r'.file cfg.id) + r'.stalls.toInt = asked done) ∧
    (∃ r', closeTraceLog cfg.id r = .ok r' ∧ cycles (r'.file cfg.id) = asked calls) ↔
      Careful cfg (openTraceLog cfg.id r₀) calls ∧ r.stalls.toInt = 0 := by
  have hl := open_live cfg r₀
  have hiff := conserves_iff_careful hone hl hrun
  have hcons : Conserves cfg (openTraceLog cfg.id r₀) calls ↔
      ∀ done r', done <+: calls → Runs.run (call cfg) (openTraceLog cfg.id r₀) done = .ok r' →
        cycles (r'.file cfg.id) + r'.stalls.toInt = asked done := by
    simp only [Conserves, open_total, zero_add]
    exact Iff.rfl
  obtain ⟨r', hclose, hcycles⟩ := close_eq (run_live hone hl hrun)
  rw [← hcons, ← hiff]
  refine and_congr_right fun h => ?_
  have hall : cycles (r.file cfg.id) + r.stalls.toInt = asked calls :=
    hcons.mp h calls r prefix_rfl hrun
  constructor
  · rintro ⟨t, ht, hsum⟩
    cases hclose.symm.trans ht
    omega
  · intro hz
    exact ⟨r', hclose, by omega⟩

def onePe : Setup := ⟨[(16, 64)], [[0]], 0⟩

theorem stalls_conserved_iff_load :
    ∃ r, Runs.run (call onePe) (openTraceLog 0 .init)
        [.incrementStalls 3 0 0 0 0, .emitLoad 24 0 0 0 0 0, .emitStallWithDeps 2 1 24 0 0] =
          .ok r ∧
      ∃ r', closeTraceLog 0 r = .ok r' ∧ cycles (r'.file 0) = 5 := by
  have hrun : Runs.Ends (call onePe) (openTraceLog 0 .init)
      [.incrementStalls 3 0 0 0 0, .emitLoad 24 0 0 0 0 0, .emitStallWithDeps 2 1 24 0 0]
      (fun r => r.stalls.toInt = 0) := by decide +kernel
  obtain ⟨r, hr, hz⟩ := hrun
  have hcareful : Careful onePe (openTraceLog 0 .init)
      [.incrementStalls 3 0 0 0 0, .emitLoad 24 0 0 0 0 0, .emitStallWithDeps 2 1 24 0 0] := by
    refine ⟨.inl (by decide), fun s hs => ⟨trivial, fun t ht => ⟨?_, fun _ _ => trivial⟩⟩⟩
    cases hs
    cases ht
    exact .inr ⟨by decide, by decide⟩
  exact ⟨r, hr, ((stalls_conserved_iff (by decide) .init _ hr).mpr ⟨hcareful, hz⟩).2⟩

/-- Three pending stalls are dropped by a dependent stall of two, and three pending ones
are not written by the closing of the log. -/
theorem stalls_lost :
    asked [.incrementStalls 3 0 0 0 0, .emitStallWithDeps 2 1 24 0 0] = 5 ∧
    Runs.Ends (call onePe) (openTraceLog 0 .init)
      [.incrementStalls 3 0 0 0 0, .emitStallWithDeps 2 1 24 0 0]
      (fun r => cycles (r.file 0) = 2 ∧ r.stalls = 0) ∧
    Runs.Ends (call onePe) (openTraceLog 0 .init) [.incrementStalls 3 0 0 0 0]
      (fun r => (closeTraceLog 0 r).map (fun r' => cycles (r'.file 0)) = .ok 0) := by
  decide +kernel

end HetSim.Tracer
