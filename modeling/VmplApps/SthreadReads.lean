import VmplApps.SthreadEvents

/-! Blocking reads. A read is saved and performed later, by whoever schedules its
thread. In order, a read is issued, performed and resumed, once each; the return of a
nested jump resumes a reader whose read nobody has performed for it. -/
namespace VmplApps
namespace Sthreads

inductive Phase
  | idle
  | pending (tf : TrapFrame)
  | done
  deriving DecidableEq, Repr

/-- A read is issued, then performed with the frame it was issued with, then its
thread goes on; other events do not matter. -/
def Phase.next : Event → Phase → Option Phase
  | .issued _ tf,.idle => some (.pending tf)
  | .performed _ tf,.pending tf' => if tf = tf' then some .done else none
  | .resumed _,.done => some .idle
  | .issued _ _,_ => none
  | .performed _ _,_ => none
  | .resumed _,_ => none
  | _,p => some p

def readsAlong (id : CInt) : List Event → Option Phase
  | [] => some .idle
  | e::h => (readsAlong id h).bind fun p => if e.thread = some id then p.next e else some p

/-- So far every read has been performed once between its issue and the continuation
of its thread, and has been continued once; and a read that still waits is the one in
its thread's record, where `schedule` will find it. -/
structure ReadsOnce (x : Observed) : Prop where
  once : ∀ id, (readsAlong id x.history).isSome
  saved : ∀ id tf, readsAlong id x.history = some (.pending tf) →
    ∃ s, x.machine.kernel.find id = some s ∧ s.stState = .running ∧ s.stTf = tf

def Life.phase : Life → Phase
  | .blocked tf => .pending tf
  | .served => .done
  | _ => .idle

section Reads
variable {boot : Boot} {m m' : Machine} {x y : Observed} {l : Label} {id : CInt}

theorem phase_next {e : Event} {a b : Life} (h : a.next e = some b) :
    a.phase.next e = some b.phase := by
  cases e with
  | performed x tf =>
    cases a with
    | blocked tf' =>
      simp only [Life.next] at h
      split_ifs at h with heq
      obtain rfl := Option.some.inj h
      simp [Life.phase,Phase.next,heq]
    | _ => cases h
  | joined x v =>
    cases a with
    | exited v' =>
      simp only [Life.next] at h
      split_ifs at h
      obtain rfl := Option.some.inj h
      rfl
    | _ => cases h
  | _ => cases a <;> cases h <;> rfl

theorem readsAlong_of_life {h : List Event} {a : Life} (hlife : lifeAlong id .absent h = some a) :
    readsAlong id h = some a.phase := by
  induction h generalizing a with
  | nil =>
    obtain rfl := Option.some.inj hlife
    rfl
  | cons e h ih =>
    obtain ⟨b,hb,hafter⟩ := Option.bind_eq_some_iff.mp hlife
    rw [readsAlong,ih hb,Option.bind_some]
    unfold Life.after at hafter
    split_ifs at hafter ⊢ with he
    · exact phase_next hafter
    · obtain rfl := Option.some.inj hafter
      rfl

theorem readsOnce_of_lawful (hx : Lawful x) : ReadsOnce x := by
  refine ⟨fun id => ?_,fun id tf hpending => ?_⟩
  · rw [readsAlong_of_life (hx.lives id)]
    rfl
  · rw [readsAlong_of_life (hx.lives id),Option.some_inj] at hpending
    refine found_of_blocked ?_
    unfold Life.phase at hpending
    split at hpending
    · rename_i heq
      rw [heq,Phase.pending.inj hpending]
    · cases hpending
    · cases hpending

theorem returned_nested (h : nested m = true) : ∃ v, returned m = [.resumed v] := by
  unfold nested at h
  split at h
  · rename_i f v fs hframes
    exact ⟨v,by rw [returned,hframes]⟩
  · cases h

/-- When a nested jump returns, a thread goes on right after another has exited or
issued a read. -/
theorem events_nested (hend : (endsJump boot m l && nested m) = true) (h : step boot m l = .ok m') :
    ∃ v u e, events boot m l = [.resumed v,e] ∧
      ((∃ a, e = .exited u a) ∨ ∃ tf, e = .issued u tf) := by
  obtain ⟨hend,hn⟩ := Bool.and_eq_true_iff.mp hend
  obtain ⟨v,hv⟩ := returned_nested hn
  cases stepped_of_step h with
  | @exited u c s s' tf tf' r _ hm hc hf hcheck h666 hunw =>
    refine ⟨v,u,.exited u tf.arg0,?_,.inl ⟨_,rfl⟩⟩
    rw [events_syscall hm hc hf hcheck,Option.elim_some,callEvents,if_pos h666,hv]
    rfl
  | @read u c s s' tf tf' r _ hm hc hf hcheck hread hsched =>
    have hnone : nextRunnable m.kernel = none := by
      rw [endsJump,permitted_of_check hc hf hcheck,hread] at hend
      simpa [SYS_read] using hend
    refine ⟨v,u,.issued u tf',?_,.inr ⟨_,rfl⟩⟩
    rw [events_syscall hm hc hf hcheck,Option.elim_some,callEvents_read hread,hnone,hv]
    rfl
  | blocked r hm hc hf hcheck => simp [endsJump,permitted,hc,hf,hcheck] at hend
  | opened r hm hc hf hcheck hopen => simp [endsJump,hopen,SYS_open,SYS_read] at hend
  | openFailed r hm hc hf hcheck hopen => simp [endsJump,hopen,SYS_open,SYS_read] at hend
  | passed r hm hc hf hcheck hnum =>
    simp only [endsJump,Bool.and_eq_true,Bool.or_eq_true,beq_iff_eq] at hend
    exact absurd hend.2 (by tauto)
  | _ => cases hend

/-- No thread can go on whose read has not been performed since the last step. -/
theorem resumed_breaks (hx : Lawful x) {u v : CInt} {e : Event}
    (he : (∃ a, e = .exited u a) ∨ ∃ tf, e = .issued u tf) :
    readsAlong v (.resumed v::e::x.history) = none := by
  have hphase : (lifeOf x.machine v).phase ≠ .done := by
    have hne := lifeOf_ne_served x.machine v
    cases hlife : lifeOf x.machine v <;> first | exact absurd hlife hne | exact Phase.noConfusion
  have hkept {p q : Phase} (hp : p ≠ .done) (hq : p.next e = some q) : q ≠ .done := by
    rcases he with ⟨a,rfl⟩ | ⟨tf,rfl⟩
    · obtain rfl : p = q := Option.some.inj (by cases p <;> exact hq)
      exact hp
    · cases p with
      | idle => exact Option.some.inj hq ▸ Phase.noConfusion
      | pending | done => cases hq
  have hresume {p : Phase} (hp : p ≠ .done) : p.next (.resumed v) = none := by
    cases p <;> first | exact absurd rfl hp | rfl
  have hbefore {p : Phase} (hp : readsAlong v (e::x.history) = some p) : p ≠ .done := by
    rw [readsAlong,readsAlong_of_life (hx.lives v),Option.bind_some] at hp
    split_ifs at hp
    · exact hkept hphase hp
    · rwa [← Option.some.inj hp]
  rw [readsAlong]
  cases hp : readsAlong v (e::x.history) with
  | none => rfl
  | some p => exact (if_pos rfl).trans (hresume (hbefore hp))

end Reads

section Runs
variable {rt : Runtime} {segments : List Segment} {pgroot : LeafTable Word} {mem : Mem}
  {r : InitReply} {boot : Boot} {m₀ : Machine} {x : Observed}

/-- In every run in which no nested jump returns, each read happens once; and the
first return from a nested jump breaks this. Stores do not reach the kernel's data on
this machine, so of the program this is said where every step `sparesKernel`. -/
theorem runs_reads_once {ls : List Label} (hinit : sthreadInit rt segments pgroot mem r = .ok (boot,m₀))
    (hruns : Runs (fun a l b => returnsToMaster boot a.machine l = true ∧ a.step boot l = .ok b)
      ⟨m₀,[]⟩ ls x) :
    ReadsOnce x ∧ ∀ l y, x.step boot l = .ok y →
      (ReadsOnce y ↔ returnsToMaster boot x.machine l = true) := by
  have hx := lawful_runs hinit hruns
  refine ⟨readsOnce_of_lawful hx,fun l y hstep => ⟨fun hy => ?_,fun hret => ?_⟩⟩
  · by_contra hret
    obtain ⟨hmachine,hhistory⟩ := Observed.step_ok hstep
    obtain ⟨v,u,e,hevents,he⟩ := events_nested (by simpa [returnsToMaster] using hret) hmachine
    have honce := hy.once v
    rw [hhistory,hevents] at honce
    have hnone : readsAlong v (.resumed v::e::x.history) = none := resumed_breaks hx he
    rw [List.cons_append,List.cons_append,List.nil_append,hnone] at honce
    cases honce
  · exact readsOnce_of_lawful (hx.step hret hstep)

end Runs

section TwoReaders

/-- The hypotheses hold of a run with two readers, one of them entered again inside
the other's system call. -/
theorem runs_reads_once_twoReaders : ∃ boot m₀ x,
    sthreadInit flatRuntime oneSegment onePage (fun _ => 0) flatInit = .ok (boot,m₀) ∧
    Runs (fun a l b => returnsToMaster boot a.machine l = true ∧ a.step boot l = .ok b)
      ⟨m₀,[]⟩ twoReaders x ∧ readsAlong 1 x.history = some .idle ∧ ReadsOnce x := by
  obtain ⟨boot,m₀,x,hinit,hruns,hp⟩ := exists_of_replay flatRuntime oneSegment onePage
    (fun _ => 0) flatInit (fun m => ⟨m,[]⟩) Observed.step
    (fun boot a l => returnsToMaster boot a.machine l) twoReaders
    (fun x => readsAlong 1 x.history == some .idle) (by decide +kernel)
  exact ⟨boot,m₀,x,hinit,hruns,beq_iff_eq.mp hp,(runs_reads_once hinit hruns).1⟩

/-- When the first thread then exits, the second one goes on after a read that was
never performed. -/
theorem nested_exit_loses_read : ∃ boot m₀ x,
    sthreadInit flatRuntime oneSegment onePage (fun _ => 0) flatInit = .ok (boot,m₀) ∧
    Runs (fun a l b => trusted boot a.machine l = true ∧ a.step boot l = .ok b)
      ⟨m₀,[]⟩ (.syscall exitCall {}::twoReaders) x ∧
    x.machine.mode = .user 2 ∧ .resumed 2 ∈ x.history ∧ (∀ tf, .performed 2 tf ∉ x.history) ∧
    ¬ReadsOnce x := by
  obtain ⟨boot,m₀,x,hinit,hruns,hp⟩ := exists_of_replay flatRuntime oneSegment onePage
    (fun _ => 0) flatInit (fun m => ⟨m,[]⟩) Observed.step
    (fun boot a l => trusted boot a.machine l) (.syscall exitCall {}::twoReaders)
    (fun x => x.machine.mode == .user 2 && decide (.resumed 2 ∈ x.history) &&
      x.history.all (fun e => match e with
        | .performed id _ => id != 2
        | _ => true) && (readsAlong 2 x.history).isNone) (by decide +kernel)
  simp only [Bool.and_eq_true,beq_iff_eq,decide_eq_true_eq,List.all_eq_true,
    Option.isNone_iff_eq_none] at hp
  obtain ⟨⟨⟨hmode,hresumed⟩,hnever⟩,hnone⟩ := hp
  refine ⟨boot,m₀,x,hinit,hruns,hmode,hresumed,fun tf hmem => ?_,fun h => ?_⟩
  · exact absurd (hnever _ hmem) (by simp)
  · have honce := h.once 2
    rw [hnone] at honce
    cases honce

end TwoReaders

end Sthreads
end VmplApps
