import VmplApps.HostPrograms
import VmplApps.Words

/-! The handshake of `clone`: `dune_pthread_create` waits for `pthread_entry` to
store its thread id in a `thread_arg` on the parent's stack. Each operation on the
mutex, the condition variable or the fields is one event; a wait may also end
without a signal. -/
namespace VmplApps
namespace CloneHandshake

inductive Party
  | parent
  | child
  deriving DecidableEq, Repr

/-- The next operation of `dune_pthread_create`. -/
inductive Parent
  | initCnd
  | initMtx
  | create
  | lock
  | test
  | wait
  | blocked
  | relock
  | unlock
  | destroyMtx
  | destroyCnd
  | ret
  | returned (v : ℤ)
  deriving DecidableEq, Repr

/-- The next operation of `pthread_entry`. -/
inductive Child
  | absent
  | readArg
  | setUp
  | lock
  | storeTid
  | unlock
  | signal
  | entered
  deriving DecidableEq, Repr

/-- Both program counters, the owner of `ta_mtx`, and `ta_tid`. -/
structure State where
  parent : Parent := .initCnd
  child : Child := .absent
  owner : Option Party := none
  taTid : CInt := 0
  deriving DecidableEq, Repr

/-- The three initial calls may fail; `wake` is a wait that ends without a signal. -/
inductive Event
  | initCnd (ok : Bool)
  | initMtx (ok : Bool)
  | create (ok : Bool)
  | lock
  | test
  | wait
  | wake
  | relock
  | unlock
  | destroyMtx
  | destroyCnd
  | ret
  | readArg
  | setUp
  | childLock
  | storeTid
  | childUnlock
  | signal
  deriving DecidableEq, Repr

/-- One event, if it is enabled. The child's thread id is `tid`. -/
def step (tid : CInt) (s : State) : Event → Option State
  | .initCnd ok =>
    if s.parent = .initCnd then some {s with parent := if ok then .initMtx else .returned (-1)}
    else none
  | .initMtx ok =>
    if s.parent = .initMtx then some {s with parent := if ok then .create else .returned (-1)}
    else none
  | .create ok =>
    if s.parent = .create then
      some (if ok then {s with parent := .lock, child := .readArg} else {s with parent := .returned (-1)})
    else none
  | .lock =>
    if s.parent = .lock ∧ s.owner = none then some {s with parent := .test, owner := some .parent}
    else none
  -- the test of `ta_tid` is made once
  | .test =>
    if s.parent = .test then some {s with parent := if s.taTid = 0 then .wait else .unlock} else none
  | .wait => if s.parent = .wait then some {s with parent := .blocked, owner := none} else none
  | .wake => if s.parent = .blocked then some {s with parent := .relock} else none
  | .relock =>
    if s.parent = .relock ∧ s.owner = none then some {s with parent := .unlock, owner := some .parent}
    else none
  | .unlock => if s.parent = .unlock then some {s with parent := .destroyMtx, owner := none} else none
  | .destroyMtx => if s.parent = .destroyMtx then some {s with parent := .destroyCnd} else none
  | .destroyCnd => if s.parent = .destroyCnd then some {s with parent := .ret} else none
  | .ret => if s.parent = .ret then some {s with parent := .returned s.taTid.toInt} else none
  | .readArg => if s.child = .readArg then some {s with child := .setUp} else none
  | .setUp => if s.child = .setUp then some {s with child := .lock} else none
  | .childLock =>
    if s.child = .lock ∧ s.owner = none then some {s with child := .storeTid, owner := some .child}
    else none
  | .storeTid => if s.child = .storeTid then some {s with child := .unlock, taTid := tid} else none
  | .childUnlock => if s.child = .unlock then some {s with child := .signal, owner := none} else none
  -- a signal wakes the parent if it waits, and is lost otherwise
  | .signal =>
    if s.child = .signal then
      some {s with child := .entered, parent := if s.parent = .blocked then .relock else s.parent}
    else none

def Event.onArg : Event → Bool
  | .readArg | .childLock | .storeTid | .childUnlock | .signal => true
  | _ => false

/-- Every event of a history, most recent first, is in relation to those before it. -/
def Along (Q : Event → List Event → Prop) : List Event → Prop
  | [] => True
  | e::es => Q e es ∧ Along Q es

/-- The condition variable is destroyed only after the child has signalled. -/
def SignalFirst : List Event → Prop := Along fun e es => e = .destroyCnd → .signal ∈ es

/-- Once the condition variable is destroyed, the child leaves the argument alone. -/
def NoLateOps : List Event → Prop := Along fun e es => e.onArg = true → .destroyCnd ∉ es

/-- A parent that has created the child returns its nonzero thread id, and nothing
is done to the argument after it was destroyed. -/
structure Safe (tid : CInt) (es : List Event) (s : State) : Prop where
  returns : ∀ v, s.parent = .returned v → s.child ≠ .absent → v = tid.toInt ∧ v ≠ 0
  noLate : NoLateOps es

section Lists
variable {es : List Event}

theorem SignalFirst.signal_mem (h : SignalFirst es) (hd : .destroyCnd ∈ es) : .signal ∈ es := by
  induction es with
  | nil => cases hd
  | cons e es ih =>
    rcases List.mem_cons.mp hd with rfl | hd
    · exact List.mem_cons_of_mem _ (h.1 rfl)
    · exact List.mem_cons_of_mem _ (ih h.2 hd)

theorem signalFirst_of_not_mem (h : .destroyCnd ∉ es) : SignalFirst es := by
  induction es with
  | nil => trivial
  | cons e es ih =>
    rw [List.mem_cons,not_or] at h
    exact ⟨fun he => absurd he.symm h.1,ih h.2⟩

theorem NoLateOps.signalFirst (h : NoLateOps es) (hs : .signal ∈ es) : SignalFirst es := by
  induction es with
  | nil => trivial
  | cons e es ih =>
    by_cases he : e = .signal
    · subst he
      exact ⟨nofun,signalFirst_of_not_mem (h.1 rfl)⟩
    · have hin : .signal ∈ es := (List.mem_cons.mp hs).resolve_left (Ne.symm he)
      exact ⟨fun _ => hin,ih h.2 hin⟩

end Lists

section Steps
variable {tid : CInt} {s s' : State} {e : Event}

def Started (s : State) : Prop :=
  s.child ≠ .absent → s.parent ≠ .initCnd ∧ s.parent ≠ .initMtx ∧ s.parent ≠ .create

theorem step_started (h : step tid s e = some s') (hs : Started s) : Started s' := by
  unfold Started at hs ⊢
  cases e with
  | create ok => cases ok <;> grind [step]
  | _ => grind [step]

theorem step_child (h : step tid s e = some s') (hs : Started s) :
    (e.onArg = true → s.child ≠ .entered) ∧
      (s'.child = .entered ↔ e = .signal ∨ s.child = .entered) := by
  unfold Started at hs
  cases e with
  | create ok => cases ok <;> grind [step,Event.onArg]
  | _ => grind [step,Event.onArg]

def Stored (tid : CInt) (s : State) : Prop :=
  s.child = .unlock ∨ s.child = .signal ∨ s.child = .entered → s.taTid = tid

theorem step_stored (h : step tid s e = some s') (hs : Stored tid s) : Stored tid s' := by
  unfold Stored at hs ⊢
  cases e with
  | create ok => cases ok <;> grind [step]
  | _ => grind [step]

theorem step_ret (h : step tid s e = some s') (hr : s'.parent = .ret) :
    e = .destroyCnd ∨ s.parent = .ret := by
  cases e with
  | create ok => cases ok <;> grind [step]
  | _ => grind [step]

theorem step_returned (h : step tid s e = some s') (hs : Started s) {v : ℤ}
    (hv : s'.parent = .returned v) (hc : s'.child ≠ .absent) :
    (s.parent = .returned v ∧ s.child ≠ .absent) ∨ (s.parent = .ret ∧ v = s.taTid.toInt) := by
  unfold Started at hs
  cases e with
  | create ok => cases ok <;> grind [step]
  | _ => grind [step]

structure Handshake (tid : CInt) (s : State) (es : List Event) : Prop where
  started : Started s
  stored : Stored tid s
  signalled : .signal ∈ es ↔ s.child = .entered
  destroyed : s.parent = .ret → .destroyCnd ∈ es
  noLate : SignalFirst es → NoLateOps es
  returns : SignalFirst es → ∀ v, s.parent = .returned v → s.child ≠ .absent → v = tid.toInt

theorem handshake_start : Handshake tid {} [] where
  started := fun h => absurd rfl h
  stored := by simp [Stored]
  signalled := by simp
  destroyed := nofun
  noLate := fun _ => trivial
  returns := nofun

theorem Handshake.step {es : List Event} (hi : Handshake tid s es)
    (h : CloneHandshake.step tid s e = some s') : Handshake tid s' (e::es) := by
  obtain ⟨hop,hentered⟩ := step_child h hi.started
  refine ⟨step_started h hi.started,step_stored h hi.stored,?_,?_,?_,?_⟩
  · rw [hentered,List.mem_cons,hi.signalled,eq_comm]
  · intro hr
    rcases step_ret h hr with rfl | hr
    · exact List.mem_cons_self
    · exact List.mem_cons_of_mem _ (hi.destroyed hr)
  · intro hf
    refine ⟨fun harg hd => hop harg ?_,hi.noLate hf.2⟩
    exact hi.signalled.mp (SignalFirst.signal_mem hf.2 hd)
  · intro hf v hv hc
    rcases step_returned h hi.started hv hc with ⟨hv,hc⟩ | ⟨hr,rfl⟩
    · exact hi.returns hf.2 v hv hc
    -- the destruction is past, so the child has signalled and its id is in place
    · have hsig := SignalFirst.signal_mem hf.2 (hi.destroyed hr)
      rw [hi.stored (.inr (.inr (hi.signalled.mp hsig)))]

end Steps

/-- In every interleaving in which the condition variable is destroyed only after
the child's signal, the handshake is safe; and in an interleaving in which the
child finishes, it is safe only then. -/
theorem handshake_safe_iff {tid : CInt} (htid : tid ≠ 0) {es : List Event} {s : State}
    (h : Runs (fun s e s' => step tid s e = some s') {} es s) :
    (SignalFirst es → Safe tid es s) ∧ (s.child = .entered → (Safe tid es s ↔ SignalFirst es)) := by
  have hi : Handshake tid s es := h.invariant handshake_start fun _ _ _ _ hi h => hi.step h
  have hsafe : SignalFirst es → Safe tid es s := by
    intro hf
    refine ⟨fun v hv hc => ?_,hi.noLate hf⟩
    obtain rfl := hi.returns hf v hv hc
    exact ⟨rfl,fun h0 => htid (BitVec.toInt_inj.mp (h0.trans BitVec.toInt_zero.symm))⟩
  refine ⟨hsafe,fun hdone => ⟨fun hs => ?_,hsafe⟩⟩
  exact hs.noLate.signalFirst (hi.signalled.mpr hdone)

def replay (tid : CInt) : List Event → Option State
  | [] => some {}
  | e::es => (replay tid es).bind (step tid · e)

theorem runs_of_replay {tid : CInt} {es : List Event} {s : State} (h : replay tid es = some s) :
    Runs (fun s e s' => step tid s e = some s') {} es s := by
  induction es generalizing s with
  | nil =>
    obtain rfl := Option.some.inj h
    exact .start _
  | cons e es ih =>
    obtain ⟨s₁,h₁,hs⟩ := Option.bind_eq_some_iff.mp h
    exact .next (ih h₁) hs

def signalled : List Event :=
  [.ret,.destroyCnd,.destroyMtx,.unlock,.relock,.signal,.childUnlock,.storeTid,.childLock,.setUp,
    .readArg,.wait,.test,.lock,.create true,.initMtx true,.initCnd true]

def woken : List Event :=
  [.ret,.destroyCnd,.destroyMtx,.unlock,.relock,.wake,.wait,.test,.lock,.create true,.initMtx true,
    .initCnd true]

theorem handshake_safe_iff_signalled : Safe 7 signalled ⟨.returned 7,.entered,none,7⟩ := by
  have hrun : Runs (fun s e s' => step 7 s e = some s') {} signalled
      ⟨.returned 7,.entered,none,7⟩ := runs_of_replay rfl
  refine (handshake_safe_iff (by decide) hrun).1 ?_
  simp [SignalFirst,Along,signalled]

/-- A parent that is woken early returns zero while the child is still to come. -/
theorem woken_returns_zero :
    ¬ ∀ (tid : CInt) (es : List Event) (s : State), tid ≠ 0 →
      Runs (fun s e s' => step tid s e = some s') {} es s → Safe tid es s := by
  intro h
  have hrun : Runs (fun s e s' => step 7 s e = some s') {} woken
      ⟨.returned 0,.readArg,none,0⟩ := runs_of_replay rfl
  exact ((h 7 woken _ (by decide) hrun).returns 0 rfl nofun).2 rfl

section Progress
variable {tid : CInt} {s s' : State} {e : Event}

def Parent.left : Parent → ℕ
  | .initCnd => 12
  | .initMtx => 11
  | .create => 10
  | .lock => 9
  | .test => 8
  | .wait => 7
  | .blocked => 6
  | .relock => 5
  | .unlock => 4
  | .destroyMtx => 3
  | .destroyCnd => 2
  | .ret => 1
  | .returned _ => 0

def Child.left : Child → ℕ
  | .absent | .readArg => 6
  | .setUp => 5
  | .lock => 4
  | .storeTid => 3
  | .unlock => 2
  | .signal => 1
  | .entered => 0

theorem step_left (h : step tid s e = some s') (hs : Started s) :
    s'.parent.left + s'.child.left < s.parent.left + s.child.left := by
  unfold Started at hs
  cases e with
  | create ok => cases ok <;> grind [step,Parent.left,Child.left]
  | initCnd ok => cases ok <;> grind [step,Parent.left,Child.left]
  | initMtx ok => cases ok <;> grind [step,Parent.left,Child.left]
  | _ => grind [step,Parent.left,Child.left]

def Owners (s : State) : Prop :=
  (s.owner = some .parent ↔ s.parent = .test ∨ s.parent = .wait ∨ s.parent = .unlock) ∧
    (s.owner = some .child ↔ s.child = .storeTid ∨ s.child = .unlock)

theorem step_owners (h : step tid s e = some s') (hstart : Started s) (hs : Owners s) :
    Owners s' := by
  unfold Started at hstart
  unfold Owners at hs ⊢
  cases e with
  | create ok | initCnd ok | initMtx ok => cases ok <;> grind [step]
  | _ => grind [step]

def Unset (s : State) : Prop :=
  s.child = .absent ∨ s.child = .readArg ∨ s.child = .setUp ∨ s.child = .lock ∨
    s.child = .storeTid → s.taTid = 0

theorem step_unset (h : step tid s e = some s') (hstart : Started s) (hs : Unset s) : Unset s' := by
  unfold Started at hstart
  unfold Unset at hs ⊢
  cases e with
  | create ok => cases ok <;> grind [step]
  | _ => grind [step]

def Childless (s : State) : Prop :=
  s.child = .absent →
    s.parent = .initCnd ∨ s.parent = .initMtx ∨ s.parent = .create ∨ s.parent = .returned (-1)

theorem step_childless (h : step tid s e = some s') (hs : Childless s) : Childless s' := by
  unfold Childless at hs ⊢
  cases e with
  | create ok | initCnd ok | initMtx ok => cases ok <;> grind [step]
  | _ => grind [step]

/-- A parent that waits does so before the child's signal. -/
def Attends (s : State) : Prop :=
  (s.parent = .wait → s.taTid = 0) ∧ (s.parent = .blocked → s.child ≠ .absent ∧ s.child ≠ .entered)

theorem step_attends (htid : tid ≠ 0) (h : step tid s e = some s') (howners : Owners s)
    (hstored : Stored tid s) (hchild : Childless s) (hs : Attends s) : Attends s' := by
  unfold Attends at hs ⊢
  unfold Owners at howners
  unfold Stored at hstored
  unfold Childless at hchild
  cases e with
  | create ok | initCnd ok | initMtx ok => cases ok <;> grind [step]
  | _ => grind [step]

def Answered (tid : CInt) (s : State) : Prop :=
  (s.parent = .relock ∨ s.parent = .unlock ∨ s.parent = .destroyMtx ∨ s.parent = .destroyCnd ∨
    s.parent = .ret → s.taTid = tid) ∧
  ∀ v, s.parent = .returned v → s.child ≠ .absent → v = tid.toInt

theorem taTid_cases (hunset : Unset s) (hstored : Stored tid s) : s.taTid = 0 ∨ s.taTid = tid := by
  unfold Unset at hunset
  unfold Stored at hstored
  cases hc : s.child <;> simp [hc] at hunset hstored
  all_goals first
    | exact .inl hunset
    | exact .inr hstored

theorem step_answered (h : step tid s e = some s') (he : e ≠ .wake) (hstart : Started s)
    (hstored : Stored tid s) (htid : s.taTid = 0 ∨ s.taTid = tid) (hs : Answered tid s) :
    Answered tid s' := by
  unfold Answered at hs ⊢
  unfold Started at hstart
  unfold Stored at hstored
  cases e with
  | create ok | initCnd ok | initMtx ok => cases ok <;> grind [step]
  | _ => grind [step]

structure Underway (tid : CInt) (s : State) (es : List Event) : Prop where
  started : Started s
  stored : Stored tid s
  owners : Owners s
  unset : Unset s
  childless : Childless s
  attends : Attends s
  answered : .wake ∉ es → Answered tid s
  left : es.length + (s.parent.left + s.child.left) ≤ 18

theorem Underway.step {es : List Event} (htid : tid ≠ 0) (hi : Underway tid s es)
    (h : CloneHandshake.step tid s e = some s') : Underway tid s' (e::es) where
  started := step_started h hi.started
  stored := step_stored h hi.stored
  owners := step_owners h hi.started hi.owners
  unset := step_unset h hi.started hi.unset
  childless := step_childless h hi.childless
  attends := step_attends htid h hi.owners hi.stored hi.childless hi.attends
  answered := by
    intro hwake
    rw [List.mem_cons,not_or] at hwake
    exact step_answered h (Ne.symm hwake.1) hi.started hi.stored (taTid_cases hi.unset hi.stored)
      (hi.answered hwake.2)
  left := by
    have hless := step_left h hi.started
    have hbound := hi.left
    simp only [List.length_cons]
    omega

end Progress

end CloneHandshake
end VmplApps
