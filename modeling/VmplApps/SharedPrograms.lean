import VmplApps.HostPrograms

/-! Threads that run programs on one shared state. Reading the state, writing it and
calling the environment are separate steps, so that other threads may come in
between; some programs run under a lock. `Before` and `After` are the rules for a
program that commits to at most one value by one of its writes, whatever the others
do in the meantime, and `runs_committed` carries them to every interleaving of any
number of threads. -/
namespace VmplApps
namespace Shared

/-- A thread in the middle of a program: the rest of it, the states it has read, most
recent first, and its calls so far. -/
structure Thread (O σ ε C R α : Type) where
  op : O
  rest : Prog σ ε C R α
  reads : List σ := []
  trace : List (C × R) := []

structure System (T O σ ε C R α : Type) where
  state : σ
  lock : Option T := none
  threads : T → Option (Thread O σ ε C R α) := fun _ => none

/-- The programs, which of them take the lock, and the environment. A program writes
a whole state; `store` says what becomes of the shared one, given the state that the
program read last. -/
structure Workload (O σ ε C R α : Type) where
  code : O → Prog σ ε C R α
  locked : O → Bool
  env : C → R → Prop
  store : σ → σ → σ → σ

inductive Action (T O ε C R α : Type)
  | start (i : T) (op : O)
  | read (i : T)
  | call (i : T) (c : C) (r : R)
  | store (i : T)
  | finish (i : T) (op : O) (trace : List (C × R)) (value : Except ε α)

section Systems
variable {T O σ ε C R α : Type} [DecidableEq T]

def ending : Prog σ ε C R α → Option (Except ε α)
  | .ret a => some (.ok a)
  | .fail e => some (.error e)
  | _ => none

theorem ending_cases {p : Prog σ ε C R α} {value : Except ε α} (h : ending p = some value) :
    (∃ a, p = .ret a ∧ value = .ok a) ∨ ∃ e, p = .fail e ∧ value = .error e := by
  cases p with
  | ret a => exact .inl ⟨a,rfl,(Option.some.inj h).symm⟩
  | fail e => exact .inr ⟨e,rfl,(Option.some.inj h).symm⟩
  | halt | get | put | ask => cases h

inductive Step (w : Workload O σ ε C R α) (x : System T O σ ε C R α) :
    Action T O ε C R α → System T O σ ε C R α → Prop
  | start (i : T) (op : O) : x.threads i = none → (w.locked op = true → x.lock = none) →
      Step w x (.start i op) {x with
        lock := if w.locked op then some i else x.lock
        threads := Function.update x.threads i (some ⟨op,w.code op,[],[]⟩)}
  | read (i : T) (th : Thread O σ ε C R α) (k : σ → Prog σ ε C R α) : x.threads i = some th →
      th.rest = .get k →
      Step w x (.read i) {x with
        threads := Function.update x.threads i
          (some {th with rest := k x.state, reads := x.state::th.reads})}
  | call (i : T) (th : Thread O σ ε C R α) (c : C) (k : R → Prog σ ε C R α) (r : R) :
      x.threads i = some th → th.rest = .ask c k → w.env c r →
      Step w x (.call i c r) {x with
        threads := Function.update x.threads i
          (some {th with rest := k r, trace := th.trace ++ [(c,r)]})}
  | store (i : T) (th : Thread O σ ε C R α) (seen s : σ) (k : Prog σ ε C R α) :
      x.threads i = some th → th.rest = .put s k → th.reads.head? = some seen →
      Step w x (.store i) {x with
        state := w.store seen s x.state
        threads := Function.update x.threads i (some {th with rest := k})}
  | finish (i : T) (th : Thread O σ ε C R α) (value : Except ε α) : x.threads i = some th →
      ending th.rest = some value →
      Step w x (.finish i th.op th.trace value) {x with
        lock := if w.locked th.op then none else x.lock
        threads := Function.update x.threads i none}

/-- A condition on the writes: what the thread runs, what it has read, and the state
at the time of the write. -/
def StoresOk (ok : O → List σ → σ → Prop) (x : System T O σ ε C R α) :
    Action T O ε C R α → Prop
  | .store i => ∀ th, x.threads i = some th → ok th.op th.reads x.state
  | _ => True

end Systems

section Rules
variable {σ ε C R α β γ : Type} (env : C → R → Prop) (rely : σ → Prop) (plain : σ → σ → Prop)
  (commit : List σ → σ → γ → Prop)

/-- The program has committed and only calls the environment from here on. -/
def After (post : List (C × R) → α → Prop) : Prog σ ε C R α → List (C × R) → Prop
  | .ret a,t => post t a
  | .fail _,_ => False
  | .halt,_ => True
  | .get _,_ => False
  | .put _ _,_ => False
  | .ask c k,t => ∀ r, env c r → After post (k r) (t ++ [(c,r)])

/-- The program has not committed yet. Every state it may still read satisfies
`rely`; each of its writes is plain or commits. -/
def Before (idle : List σ → List (C × R) → α → Prop) (post : γ → List (C × R) → α → Prop) :
    Prog σ ε C R α → List σ → List (C × R) → Prop
  | .ret a,rs,t => idle rs t a
  | .fail _,_,_ => True
  | .halt,_,_ => True
  | .get k,rs,t => ∀ s, rely s → Before idle post (k s) (s::rs) t
  | .put s k,rs,t => (∃ seen, rs.head? = some seen ∧ plain seen s ∧ Before idle post k rs t) ∨
      ∃ g, commit rs s g ∧ After env (post g) k t
  | .ask c k,rs,t => ∀ r, env c r → Before idle post (k r) rs (t ++ [(c,r)])

variable {env rely plain commit}

theorem after_bind {post : List (C × R) → β → Prop} {f : α → Prog σ ε C R β} {p : Prog σ ε C R α}
    {t : List (C × R)} (h : After env (fun t a => After env post (f a) t) p t) :
    After env post (p >>= f) t := by
  change After env post (p.bind f) t
  induction p generalizing t with
  | ret a => exact h
  | halt => trivial
  | ask c k ih => exact fun r hr => ih r (h r hr)
  | fail | get | put => exact h.elim

theorem before_bind {idle : List σ → List (C × R) → β → Prop} {post : γ → List (C × R) → β → Prop}
    {f : α → Prog σ ε C R β} {p : Prog σ ε C R α} {rs : List σ} {t : List (C × R)}
    (h : Before env rely plain commit
      (fun rs t a => Before env rely plain commit idle post (f a) rs t)
      (fun g t a => After env (post g) (f a) t) p rs t) :
    Before env rely plain commit idle post (p >>= f) rs t := by
  change Before env rely plain commit idle post (p.bind f) rs t
  induction p generalizing rs t with
  | ret a => exact h
  | fail | halt => trivial
  | get k ih => exact fun s hs => ih s (h s hs)
  | ask c k ih => exact fun r hr => ih r (h r hr)
  | put s k ih =>
    rcases h with ⟨seen,hseen,hplain,h⟩ | ⟨g,hg,h⟩
    · exact .inl ⟨seen,hseen,hplain,ih h⟩
    · exact .inr ⟨g,hg,after_bind h⟩

theorem before_state {idle : List σ → List (C × R) → β → Prop} {post : γ → List (C × R) → β → Prop}
    {f : σ → Prog σ ε C R β} {rs : List σ} {t : List (C × R)} :
    Before env rely plain commit idle post (Prog.state >>= f) rs t ↔
      ∀ s, rely s → Before env rely plain commit idle post (f s) (s::rs) t :=
  Iff.rfl

theorem before_mono {idle idle' : List σ → List (C × R) → α → Prop}
    {post : γ → List (C × R) → α → Prop} {p : Prog σ ε C R α} {rs : List σ} {t : List (C × R)}
    (h : Before env rely plain commit idle post p rs t) (himp : ∀ rs t a, idle rs t a → idle' rs t a) :
    Before env rely plain commit idle' post p rs t := by
  induction p generalizing rs t with
  | ret a => exact himp rs t a h
  | fail | halt => trivial
  | get k ih => exact fun s hs => ih s (h s hs)
  | ask c k ih => exact fun r hr => ih r (h r hr)
  | put s k ih =>
    rcases h with ⟨seen,hseen,hplain,h⟩ | h
    · exact .inl ⟨seen,hseen,hplain,ih h⟩
    · exact .inr h

end Rules

section Committed
variable {T O σ ε C R α γ : Type} [DecidableEq T] {w : Workload O σ ε C R α}
  {rely : σ → Prop} {plain : σ → σ → Prop} {commit : O → List σ → σ → γ → Prop}
  {grant : O → List (C × R) → α → Option γ}

def Action.granted (grant : O → List (C × R) → α → Option γ) : Action T O ε C R α → Option γ
  | .finish _ op t (.ok a) => grant op t a
  | _ => none

/-- A thread that has not committed, or one that has committed to a value in `held`. -/
def Abides (w : Workload O σ ε C R α) (rely : σ → Prop) (plain : σ → σ → Prop)
    (commit : O → List σ → σ → γ → Prop) (grant : O → List (C × R) → α → Option γ)
    (th : Thread O σ ε C R α) : Option γ → Prop
  | none => Before w.env rely plain (commit th.op) (fun _ t a => grant th.op t a = none)
      (fun g t a => grant th.op t a = some g) th.rest th.reads th.trace
  | some g => After w.env (fun t a => grant th.op t a = some g) th.rest th.trace

def finished (grant : O → List (C × R) → α → Option γ) (ls : List (Action T O ε C R α)) : List γ :=
  ls.filterMap (Action.granted grant)

/-- Every thread abides by the rules, `held` are the values of those that have
committed and still run, and `J` holds of the state and of all values. -/
structure Committed (w : Workload O σ ε C R α) (rely : σ → Prop) (plain : σ → σ → Prop)
    (commit : O → List σ → σ → γ → Prop) (grant : O → List (C × R) → α → Option γ)
    (J : σ → List γ → Prop) (x : System T O σ ε C R α) (done : List γ) (held : List (T × γ)) :
    Prop where
  keys : (held.map Prod.fst).Nodup
  running : ∀ i ∈ held.map Prod.fst, x.threads i ≠ none
  abides : ∀ i th, x.threads i = some th → Abides w rely plain commit grant th (held.lookup i)
  values : J x.state (held.map Prod.snd ++ done)

theorem lookup_eq_none_iff {held : List (T × γ)} {i : T} :
    held.lookup i = none ↔ i ∉ held.map Prod.fst := by
  rw [List.lookup_eq_none_iff]
  constructor
  · intro h hmem
    obtain ⟨p,hp,rfl⟩ := List.mem_map.mp hmem
    exact bne_iff_ne.mp (h p hp) rfl
  · intro h p hp
    simp only [List.mem_map,not_exists,not_and] at h
    exact bne_iff_ne.mpr fun he => h p hp he.symm

theorem lookup_cons_of_ne {held : List (T × γ)} {i j : T} (g : γ) (h : j ≠ i) :
    ((i,g)::held).lookup j = held.lookup j := by
  rw [List.lookup_cons,beq_false_of_ne h]

section Steps
variable {J : σ → List γ → Prop} {x : System T O σ ε C R α} {done : List γ} {held : List (T × γ)}
  {i : T}

theorem Committed.replace (h : Committed w rely plain commit grant J x done held)
    (o : Option (Thread O σ ε C R α)) (held' : List (T × γ)) {done' : List γ} {s : σ}
    (hkeys : (held'.map Prod.fst).Nodup) (hothers : ∀ j, j ≠ i → held'.lookup j = held.lookup j)
    (hrun : o = none → i ∉ held'.map Prod.fst)
    (hth : ∀ th, o = some th → Abides w rely plain commit grant th (held'.lookup i))
    (hJ : J s (held'.map Prod.snd ++ done')) (lock : Option T) :
    Committed w rely plain commit grant J
      {x with state := s, lock := lock, threads := Function.update x.threads i o} done' held' := by
  refine ⟨hkeys,fun j hj hnone => ?_,fun j th₁ hj => ?_,hJ⟩
  · by_cases hji : j = i
    · subst hji
      simp only [Function.update_self] at hnone
      exact hrun hnone hj
    · simp only [Function.update_of_ne hji] at hnone
      refine h.running j ?_ hnone
      by_contra hfree
      rw [← lookup_eq_none_iff,← hothers j hji,lookup_eq_none_iff] at hfree
      exact hfree hj
  · by_cases hji : j = i
    · subst hji
      simp only [Function.update_self] at hj
      exact hth th₁ hj
    · simp only [Function.update_of_ne hji] at hj
      rw [hothers j hji]
      exact h.abides j th₁ hj

theorem Committed.update (h : Committed w rely plain commit grant J x done held)
    {th' : Thread O σ ε C R α} (hth : Abides w rely plain commit grant th' (held.lookup i)) {s : σ}
    (hJ : J s (held.map Prod.snd ++ done)) (lock : Option T) :
    Committed w rely plain commit grant J
      {x with state := s, lock := lock, threads := Function.update x.threads i (some th')}
      done held := by
  refine h.replace (some th') held h.keys (fun _ _ => rfl) nofun (fun th₁ h₁ => ?_) hJ lock
  exact Option.some.inj h₁ ▸ hth

theorem Committed.start (h : Committed w rely plain commit grant J x done held) {op : O}
    (hi : x.threads i = none) (lock : Option T)
    (hop : Before w.env rely plain (commit op) (fun _ t a => grant op t a = none)
      (fun g t a => grant op t a = some g) (w.code op) [] []) :
    Committed w rely plain commit grant J {x with
      lock := lock
      threads := Function.update x.threads i (some ⟨op,w.code op,[],[]⟩)} done held := by
  refine h.update ?_ h.values lock
  rw [lookup_eq_none_iff.mpr fun hmem => h.running i hmem hi]
  exact hop

theorem Committed.committing (h : Committed w rely plain commit grant J x done held)
    (hnone : held.lookup i = none) {th' : Thread O σ ε C R α} {g : γ}
    (hth : After w.env (fun t a => grant th'.op t a = some g) th'.rest th'.trace) {s : σ}
    (hJ : J s (g::(held.map Prod.snd ++ done))) :
    Committed w rely plain commit grant J
      {x with state := s, threads := Function.update x.threads i (some th')} done ((i,g)::held) := by
  have hkeys := List.nodup_cons.mpr ⟨lookup_eq_none_iff.mp hnone,h.keys⟩
  refine h.replace (some th') ((i,g)::held) hkeys (fun j hji => lookup_cons_of_ne g hji) nofun
    (fun th₁ h₁ => ?_) hJ x.lock
  rw [List.lookup_cons_self,← Option.some.inj h₁]
  exact hth

theorem Committed.leave (h : Committed w rely plain commit grant J x done held)
    (hnone : i ∉ held.map Prod.fst) (lock : Option T) :
    Committed w rely plain commit grant J
      {x with lock := lock, threads := Function.update x.threads i none} done held :=
  h.replace none held h.keys (fun _ _ => rfl) (fun _ => hnone) nofun h.values lock

theorem Committed.leave_held (h : Committed w rely plain commit grant J x done held) {g : γ}
    (hsome : held.lookup i = some g) (hperm : ∀ s gs gs', J s gs → gs.Perm gs' → J s gs')
    (lock : Option T) : ∃ held', Committed w rely plain commit grant J
      {x with lock := lock, threads := Function.update x.threads i none} (g::done) held' := by
  have hmem : (i,g) ∈ held := by
    obtain ⟨l₁,l₂,rfl,-⟩ := List.lookup_eq_some_iff.mp hsome
    simp
  obtain ⟨l₁,l₂,rfl⟩ := List.append_of_mem hmem
  have hkeys := h.keys
  simp only [List.map_append,List.map_cons] at hkeys
  have hnodup : ((l₁ ++ l₂).map Prod.fst).Nodup := by
    rw [List.map_append]
    exact (List.nodup_middle.mp hkeys).of_cons
  have hfree : i ∉ (l₁ ++ l₂).map Prod.fst := by
    rw [List.map_append]
    exact (List.nodup_cons.mp (List.nodup_middle.mp hkeys)).1
  have hlook : ∀ j, j ≠ i → (l₁ ++ l₂).lookup j = (l₁ ++ (i,g)::l₂).lookup j := by
    intro j hji
    rw [List.lookup_append,List.lookup_append,lookup_cons_of_ne g hji]
  have hvalues : ((l₁ ++ (i,g)::l₂).map Prod.snd ++ done).Perm
      ((l₁ ++ l₂).map Prod.snd ++ (g::done)) := by
    simp only [List.map_append,List.map_cons,List.append_assoc,List.cons_append]
    exact (List.perm_middle.symm.trans (by simp)).append_left _
  refine ⟨l₁ ++ l₂,?_⟩
  exact h.replace none _ hnodup hlook (fun _ => hfree) nofun (hperm _ _ _ h.values hvalues) lock

theorem Committed.finish {ls : List (Action T O ε C R α)}
    (h : Committed w rely plain commit grant J x (finished grant ls) held)
    (hperm : ∀ s gs gs', J s gs → gs.Perm gs' → J s gs') {th : Thread O σ ε C R α}
    {value : Except ε α} (hi : x.threads i = some th) (hend : ending th.rest = some value)
    (lock : Option T) : ∃ held', Committed w rely plain commit grant J
      {x with lock := lock, threads := Function.update x.threads i none}
      (finished grant (.finish i th.op th.trace value::ls)) held' := by
  have hth := h.abides i th hi
  rcases ending_cases hend with ⟨a,hrest,rfl⟩ | ⟨e,hrest,rfl⟩
  · cases hlook : held.lookup i with
    | none =>
      rw [hlook,Abides,hrest] at hth
      have hdone : finished grant (.finish i th.op th.trace (.ok a)::ls) = finished grant ls :=
        List.filterMap_cons_none hth
      rw [hdone]
      exact ⟨held,h.leave (lookup_eq_none_iff.mp hlook) lock⟩
    | some g =>
      rw [hlook,Abides,hrest] at hth
      have hdone : finished grant (.finish i th.op th.trace (.ok a)::ls) = g::finished grant ls :=
        List.filterMap_cons_some hth
      rw [hdone]
      exact h.leave_held hlook hperm lock
  -- a program that has committed does not fail
  · cases hlook : held.lookup i with
    | none => exact ⟨held,h.leave (lookup_eq_none_iff.mp hlook) lock⟩
    | some g =>
      rw [hlook,Abides,hrest] at hth
      exact hth.elim

end Steps

section Runs
variable {J : σ → List γ → Prop} {ok : O → List σ → σ → Prop}
  (hcode : ∀ op, Before w.env rely plain (commit op) (fun _ t a => grant op t a = none)
    (fun g t a => grant op t a = some g) (w.code op) [] [])
  (hperm : ∀ s gs gs', J s gs → gs.Perm gs' → J s gs')
  (hrely : ∀ s gs, J s gs → rely s)
  (hplain : ∀ s gs seen s', J s gs → plain seen s' → J (w.store seen s' s) gs)
  (hcommit : ∀ s gs op rs seen s' g, J s gs → rs.head? = some seen → commit op rs s' g → ok op rs s →
    J (w.store seen s' s) (g::gs))
include hcode hperm hrely hplain hcommit

theorem committed_step {x y : System T O σ ε C R α} {l : Action T O ε C R α}
    {ls : List (Action T O ε C R α)} {held : List (T × γ)}
    (hx : Committed w rely plain commit grant J x (finished grant ls) held) (hstep : Step w x l y)
    (hok : StoresOk ok x l) :
    ∃ held', Committed w rely plain commit grant J y (finished grant (l::ls)) held' := by
  cases hstep with
  | start i op hi _ => exact ⟨held,hx.start hi _ (hcode op)⟩
  | read i th k hi hrest =>
    have hth := hx.abides i th hi
    refine ⟨held,hx.update ?_ hx.values x.lock⟩
    cases hlook : held.lookup i with
    | none =>
      rw [hlook,Abides,hrest] at hth
      exact hth x.state (hrely _ _ hx.values)
    | some g =>
      rw [hlook,Abides,hrest] at hth
      exact hth.elim
  | call i th c k r hi hrest hr =>
    have hth := hx.abides i th hi
    refine ⟨held,hx.update ?_ hx.values x.lock⟩
    cases hlook : held.lookup i with
    | none | some g =>
      rw [hlook,Abides,hrest] at hth
      exact hth r hr
  | store i th seen s k hi hrest hseen =>
    have hth := hx.abides i th hi
    cases hlook : held.lookup i with
    | none =>
      rw [hlook,Abides,hrest] at hth
      rcases hth with ⟨seen',hseen',hpl,hth⟩ | ⟨g,hg,hth⟩
      · obtain rfl := Option.some.inj (hseen.symm.trans hseen')
        refine ⟨held,hx.update ?_ (hplain _ _ _ _ hx.values hpl) x.lock⟩
        rw [hlook]
        exact hth
      · have hJ := hcommit _ _ _ _ _ _ _ hx.values hseen hg (hok th hi)
        exact ⟨(i,g)::held,hx.committing hlook hth hJ⟩
    | some g =>
      rw [hlook,Abides,hrest] at hth
      exact hth.elim
  | finish i th value hi hend => exact hx.finish hperm hi hend _

/-- Let every program abide by the rules, and let `J` be kept by plain writes and
by the committing writes that meet the condition `ok`. Then `J` holds after every
interleaving whose writes meet it. -/
theorem runs_committed {s₀ : σ} (h0 : J s₀ []) {ls : List (Action T O ε C R α)}
    {x : System T O σ ε C R α}
    (h : Runs (fun x l y => Step w x l y ∧ StoresOk ok x l) {state := s₀} ls x) :
    ∃ held, Committed w rely plain commit grant J x (finished grant ls) held := by
  refine h.invariant (I := fun x ls => ∃ held,
    Committed w rely plain commit grant J x (finished grant ls) held) ?_ ?_
  · exact ⟨[],List.nodup_nil,by simp,nofun,h0⟩
  · rintro x ls l y ⟨held,hx⟩ ⟨hstep,hok⟩
    exact committed_step hcode hperm hrely hplain hcommit hx hstep hok

end Runs

end Committed

section Schedules
variable {T O σ ε C R α : Type} [DecidableEq T]

/-- What a scheduler decides: to start a program, or to let a thread make its next
step, with the answer it gets if that is a call. -/
inductive Move (T O R : Type)
  | start (i : T) (op : O)
  | next (i : T) (r : R)

def move (w : Workload O σ ε C R α) (x : System T O σ ε C R α) :
    Move T O R → Option (Action T O ε C R α × System T O σ ε C R α)
  | .start i op =>
    match x.threads i with
    | some _ => none
    | none =>
      if w.locked op && x.lock.isSome then none
      else some (.start i op,{x with
        lock := if w.locked op then some i else x.lock
        threads := Function.update x.threads i (some ⟨op,w.code op,[],[]⟩)})
  | .next i r =>
    match x.threads i with
    | none => none
    | some th =>
      let resume (th : Thread O σ ε C R α) := Function.update x.threads i (some th)
      match th.rest with
      | .get k => some (.read i,{x with
          threads := resume {th with rest := k x.state, reads := x.state::th.reads}})
      | .ask c k => some (.call i c r,{x with
          threads := resume {th with rest := k r, trace := th.trace ++ [(c,r)]}})
      | .put s k => th.reads.head?.map fun seen => (.store i,{x with
          state := w.store seen s x.state
          threads := resume {th with rest := k}})
      | rest => (ending rest).map fun value => (.finish i th.op th.trace value,{x with
          lock := if w.locked th.op then none else x.lock
          threads := Function.update x.threads i none})

def Action.Answered (env : C → R → Prop) : Action T O ε C R α → Prop
  | .call _ c r => env c r
  | _ => True

theorem step_of_move {w : Workload O σ ε C R α} {x y : System T O σ ε C R α} {m : Move T O R}
    {l : Action T O ε C R α} (h : move w x m = some (l,y)) (henv : l.Answered w.env) :
    Step w x l y := by
  cases m with
  | start i op =>
    simp only [move] at h
    split at h
    · cases h
    · rename_i hi
      by_cases hlock : (w.locked op && x.lock.isSome) = true
      · rw [if_pos hlock] at h
        cases h
      · rw [if_neg hlock] at h
        cases h
        exact .start i op hi (by simpa using hlock)
  | next i r =>
    simp only [move] at h
    split at h
    · cases h
    · rename_i th hi
      cases hrest : th.rest with
      | get k =>
        simp only [hrest,Option.some.injEq,Prod.mk.injEq] at h
        obtain ⟨rfl,rfl⟩ := h
        exact .read i th k hi hrest
      | ask c k =>
        simp only [hrest,Option.some.injEq,Prod.mk.injEq] at h
        obtain ⟨rfl,rfl⟩ := h
        exact .call i th c k r hi hrest henv
      | put s k =>
        simp only [hrest,Option.map_eq_some_iff,Prod.mk.injEq] at h
        obtain ⟨seen,hseen,rfl,rfl⟩ := h
        exact .store i th seen s k hi hrest hseen
      | ret | fail | halt =>
        simp only [hrest,Option.map_eq_some_iff,Prod.mk.injEq] at h
        obtain ⟨value,hend,rfl,rfl⟩ := h
        exact .finish i th value hi (hrest ▸ hend)

/-- Carry out a schedule, most recent move first, as long as every step passes a
check. -/
def schedule (w : Workload O σ ε C R α) (check : System T O σ ε C R α → Action T O ε C R α → Bool)
    (x : System T O σ ε C R α) :
    List (Move T O R) → Option (List (Action T O ε C R α) × System T O σ ε C R α)
  | [] => some ([],x)
  | m::ms =>
    (schedule w check x ms).bind fun r =>
      (move w r.2 m).bind fun n => if check r.2 n.1 then some (n.1::r.1,n.2) else none

theorem runs_of_schedule {w : Workload O σ ε C R α}
    {check : System T O σ ε C R α → Action T O ε C R α → Bool}
    {P : System T O σ ε C R α → Action T O ε C R α → System T O σ ε C R α → Prop}
    (hcheck : ∀ x l y, (l.Answered w.env → Step w x l y) → check x l = true → P x l y)
    {x y : System T O σ ε C R α} {ms : List (Move T O R)} {ls : List (Action T O ε C R α)}
    (h : schedule w check x ms = some (ls,y)) : Runs P x ls y := by
  induction ms generalizing ls y with
  | nil =>
    cases h
    exact .start x
  | cons m ms ih =>
    simp only [schedule,Option.bind_eq_some_iff] at h
    obtain ⟨⟨ls',x'⟩,hms,⟨l,z⟩,hm,h⟩ := h
    split_ifs at h with hl
    cases h
    exact .next (ih hms) (hcheck x' l z (step_of_move hm) hl)

theorem exists_of_schedule {w : Workload O σ ε C R α}
    {check : System T O σ ε C R α → Action T O ε C R α → Bool}
    {P : System T O σ ε C R α → Action T O ε C R α → System T O σ ε C R α → Prop}
    (hcheck : ∀ x l y, (l.Answered w.env → Step w x l y) → check x l = true → P x l y)
    {x : System T O σ ε C R α} {ms : List (Move T O R)}
    {p : List (Action T O ε C R α) × System T O σ ε C R α → Bool}
    (h : (schedule w check x ms).any p = true) : ∃ ls y, Runs P x ls y ∧ p (ls,y) = true := by
  cases hs : schedule w check x ms with
  | none => simp [hs] at h
  | some r => exact ⟨r.1,r.2,runs_of_schedule hcheck hs,by simpa [hs] using h⟩

end Schedules

end Shared
end VmplApps
