import VmplApps.SharedPrograms

/-! What the lock of a shared system is good for. Its holder is the one running
program that takes it; programs that take it behave in every interleaving as if they
had run one after the other; and no program that has started is ever blocked. The
last two need programs that write only what they have just read and that are short:
`Orderly` says both. -/
namespace VmplApps

namespace Prog
variable {σ ε C R α β : Type}

/-- At most `n` operations on every path, and no write without a read since the last
one. `fresh` says that there has been such a read. -/
def Orderly : Prog σ ε C R α → ℕ → Bool → Prop
  | .ret _,_,_ | .fail _,_,_ | .halt,_,_ => True
  | .get k,n,_ => 0 < n ∧ ∀ s, (k s).Orderly (n - 1) true
  | .put _ k,n,fresh => 0 < n ∧ fresh = true ∧ k.Orderly (n - 1) false
  | .ask _ k,n,fresh => 0 < n ∧ ∀ r, (k r).Orderly (n - 1) fresh

section Rules
variable {p : Prog σ ε C R α} {n : ℕ} {fresh : Bool}

theorem orderly_pure {a : α} : (pure a : Prog σ ε C R α).Orderly n fresh := trivial

theorem orderly_fail {e : ε} : (.fail e : Prog σ ε C R α).Orderly n fresh := trivial

theorem orderly_halt : (.halt : Prog σ ε C R α).Orderly n fresh := trivial

theorem orderly_ite {c : Prop} [Decidable c] {q : Prog σ ε C R α} (hp : p.Orderly n fresh)
    (hq : q.Orderly n fresh) : (if c then p else q).Orderly n fresh := by
  split_ifs
  · exact hp
  · exact hq

theorem Orderly.mono (h : p.Orderly n fresh) {m : ℕ} (hn : n ≤ m) {fresh' : Bool}
    (hf : fresh = true → fresh' = true) : p.Orderly m fresh' := by
  induction p generalizing n m fresh fresh' with
  | ret | fail | halt => trivial
  | get k ih => exact ⟨h.1.trans_le hn,fun s => ih s (h.2 s) (Nat.sub_le_sub_right hn 1) id⟩
  | put s k ih => exact ⟨h.1.trans_le hn,hf h.2.1,ih h.2.2 (Nat.sub_le_sub_right hn 1) id⟩
  | ask c k ih => exact ⟨h.1.trans_le hn,fun r => ih r (h.2 r) (Nat.sub_le_sub_right hn 1) hf⟩

theorem orderly_bind {f : α → Prog σ ε C R β} {m : ℕ} (hp : p.Orderly n fresh)
    (hf : ∀ a, (f a).Orderly m false) : (p >>= f).Orderly (n + m) fresh := by
  change (p.bind f).Orderly (n + m) fresh
  induction p generalizing n fresh with
  | ret a => exact (hf a).mono (Nat.le_add_left m n) (absurd · Bool.false_ne_true)
  | fail | halt => trivial
  | get k ih =>
    refine ⟨Nat.add_pos_left hp.1 m,fun s => ?_⟩
    rw [Nat.sub_add_comm hp.1]
    exact ih s (hp.2 s)
  | put s k ih =>
    refine ⟨Nat.add_pos_left hp.1 m,hp.2.1,?_⟩
    rw [Nat.sub_add_comm hp.1]
    exact ih hp.2.2
  | ask c k ih =>
    refine ⟨Nat.add_pos_left hp.1 m,fun r => ?_⟩
    rw [Nat.sub_add_comm hp.1]
    exact ih r (hp.2 r)

theorem orderly_call {c : C} {f : R → Prog σ ε C R β} (h : ∀ r, (f r).Orderly n false) :
    (call c >>= f).Orderly (n + 1) false :=
  ⟨n.succ_pos,h⟩

theorem orderly_state {f : σ → Prog σ ε C R β} (h : ∀ s, (f s).Orderly n false) :
    (state >>= f).Orderly (n + 1) false :=
  ⟨n.succ_pos,fun s => (h s).mono le_rfl (absurd · Bool.false_ne_true)⟩

theorem orderly_modify {g : σ → σ} {f : Unit → Prog σ ε C R β} (h : (f ()).Orderly n false) :
    (modify g >>= f).Orderly (n + 2) false :=
  ⟨by omega,fun _ => ⟨by omega,rfl,h⟩⟩

end Rules

end Prog

namespace Shared

section Actions
variable {T O σ ε C R α : Type} [DecidableEq T]

def Action.actor : Action T O ε C R α → T
  | .start i _ | .read i | .call i _ _ | .store i | .finish i _ _ _ => i

/-- The operations of thread `i` since it last started a program. -/
def spent (i : T) : List (Action T O ε C R α) → ℕ
  | [] => 0
  | .start j _::ls | .finish j _ _ _::ls => if j = i then 0 else spent i ls
  | .read j::ls | .call j _ _::ls | .store j::ls => if j = i then spent i ls + 1 else spent i ls

theorem spent_cons_of_ne {i : T} {a : Action T O ε C R α} (h : a.actor ≠ i)
    (ls : List (Action T O ε C R α)) : spent i (a::ls) = spent i ls := by
  cases a <;> exact if_neg h

def Action.ended : Action T O ε C R α → Option (O × List (C × R) × Except ε α)
  | .finish _ op t value => some (op,t,value)
  | _ => none

def ended (ls : List (Action T O ε C R α)) : List (O × List (C × R) × Except ε α) :=
  ls.filterMap Action.ended

def Thread.Stopped (th : Thread O σ ε C R α) : Prop := th.rest = .halt

end Actions

section Locks
variable {T O σ ε C R α : Type} [DecidableEq T] {w : Workload O σ ε C R α}
  {x y : System T O σ ε C R α} {a : Action T O ε C R α} {ls : List (Action T O ε C R α)}

/-- The lock is held by a thread exactly while it runs a program that takes it. -/
def Held (w : Workload O σ ε C R α) (x : System T O σ ε C R α) : Prop :=
  ∀ i, x.lock = some i ↔ ∃ th, x.threads i = some th ∧ w.locked th.op = true

theorem Held.resume (h : Held w x) {i : T} {th : Thread O σ ε C R α} (hi : x.threads i = some th)
    (th' : Thread O σ ε C R α) (hop : th'.op = th.op) (s : σ) :
    Held w {x with state := s, threads := Function.update x.threads i (some th')} := by
  intro j
  by_cases hji : j = i
  · subst hji
    simp only [Function.update_self,Option.some.injEq,exists_eq_left',hop]
    refine (h j).trans ?_
    simp only [hi,Option.some.injEq,exists_eq_left']
  · simp only [Function.update_of_ne hji]
    exact h j

theorem held_step (h : Held w x) (hstep : Step w x a y) : Held w y := by
  cases hstep with
  | start i op hi hlock =>
    intro j
    by_cases hop : w.locked op = true
    · have hfree := hlock hop
      by_cases hji : j = i
      · subst hji
        simp [hop]
      · have hj : ¬∃ th, x.threads j = some th ∧ w.locked th.op = true := by
          rw [← h j,hfree]
          simp
        simpa [hop,Function.update_of_ne hji,Ne.symm hji] using hj
    · by_cases hji : j = i
      · subst hji
        have hj := h j
        simp only [hi] at hj
        simpa [hop] using hj
      · simpa [hop,Function.update_of_ne hji] using h j
  | read i th k hi => exact h.resume hi _ (by rfl) x.state
  | call i th c k r hi => exact h.resume hi _ (by rfl) x.state
  | store i th seen s k hi => exact h.resume hi _ (by rfl) _
  | finish i th value hi =>
    intro j
    by_cases hop : w.locked th.op = true
    · have hlock : x.lock = some i := (h i).mpr ⟨th,hi,hop⟩
      by_cases hji : j = i
      · subst hji
        simp [hop]
      · have hj : ¬∃ th, x.threads j = some th ∧ w.locked th.op = true := by
          rw [← h j,hlock]
          simpa using Ne.symm hji
        simpa [hop,Function.update_of_ne hji] using hj
    · by_cases hji : j = i
      · subst hji
        have hj := h j
        simp only [hi,Option.some.injEq,exists_eq_left',hop] at hj
        simpa [hop] using hj
      · simpa [hop,Function.update_of_ne hji] using h j

theorem runs_held {s₀ : σ} (h : Runs (Step w) {state := s₀} ls x) : Held w x := by
  refine h.invariant (I := fun x _ => Held w x) ?_ fun x _ a y hx hstep => held_step hx hstep
  intro i
  simp

theorem runs_started {s₀ : σ} (h : Runs (Step w) {state := s₀} ls x) :
    (∀ i th, x.threads i = some th → .start i th.op ∈ ls) ∧
      ∀ d ∈ ended ls, ∃ i, .start i d.1 ∈ ls := by
  refine h.invariant (I := fun x ls => (∀ i th, x.threads i = some th → .start i th.op ∈ ls) ∧
    ∀ d ∈ ended ls, ∃ i, .start i d.1 ∈ ls) ⟨by simp,by simp [ended]⟩ ?_
  rintro x ls a y ⟨hlive,hended⟩ hstep
  have hold {d : O × List (C × R) × Except ε α} (hd : d ∈ ended ls) : ∃ i, .start i d.1 ∈ a::ls := by
    obtain ⟨i,hi⟩ := hended d hd
    exact ⟨i,List.mem_cons_of_mem a hi⟩
  have hupdate {i : T} {v : Option (Thread O σ ε C R α)}
      (hv : ∀ t, v = some t → .start i t.op ∈ a::ls) :
      ∀ j t, Function.update x.threads i v j = some t → .start j t.op ∈ a::ls := by
    intro j t ht
    by_cases hji : j = i
    · subst hji
      rw [Function.update_self] at ht
      exact hv t ht
    · rw [Function.update_of_ne hji] at ht
      exact List.mem_cons_of_mem a (hlive j t ht)
  cases hstep with
  | start i op hi hlock =>
    refine ⟨hupdate ?_,fun d hd => hold hd⟩
    rintro t ⟨⟩
    exact List.mem_cons_self
  | read i th k hi | call i th c k r hi | store i th seen s k hi =>
    refine ⟨hupdate ?_,fun d hd => hold hd⟩
    rintro t ⟨⟩
    exact List.mem_cons_of_mem _ (hlive i th hi)
  | finish i th value hi hend =>
    refine ⟨hupdate nofun,fun d hd => ?_⟩
    rcases List.mem_cons.mp hd with rfl | hd
    · exact ⟨i,List.mem_cons_of_mem _ (hlive i th hi)⟩
    · exact hold hd

end Locks

section Progress
variable {T O σ ε C R α : Type} [DecidableEq T] {w : Workload O σ ε C R α} {n : ℕ}
  {x y : System T O σ ε C R α} {a : Action T O ε C R α} {ls : List (Action T O ε C R α)}

/-- What a running thread may still do: it has used up part of its `n` operations, and
it has read whenever it is about to write. -/
def Metered (n : ℕ) (x : System T O σ ε C R α) (ls : List (Action T O ε C R α)) : Prop :=
  ∀ i th, x.threads i = some th → spent i ls ≤ n ∧
    ∃ fresh, th.rest.Orderly (n - spent i ls) fresh ∧ (fresh = true → th.reads ≠ [])

theorem Metered.resume (h : Metered n x ls) (a : Action T O ε C R α)
    {o : Option (Thread O σ ε C R α)}
    (hth : ∀ th, o = some th → spent a.actor (a::ls) ≤ n ∧
      ∃ fresh, th.rest.Orderly (n - spent a.actor (a::ls)) fresh ∧ (fresh = true → th.reads ≠ []))
    (s : σ) (lock : Option T) : Metered n
      {x with state := s, lock := lock, threads := Function.update x.threads a.actor o} (a::ls) := by
  intro j th' hj
  by_cases hji : j = a.actor
  · subst hji
    simp only [Function.update_self] at hj
    exact hth th' hj
  · simp only [Function.update_of_ne hji] at hj
    rw [spent_cons_of_ne (Ne.symm hji)]
    exact h j th' hj

theorem Metered.advance (h : Metered n x ls) {a : Action T O ε C R α} {th : Thread O σ ε C R α}
    (hi : x.threads a.actor = some th) (hone : spent a.actor (a::ls) = spent a.actor ls + 1)
    {th' : Thread O σ ε C R α}
    (hth : ∀ m fresh, th.rest.Orderly m fresh → (fresh = true → th.reads ≠ []) →
      0 < m ∧ ∃ fresh', th'.rest.Orderly (m - 1) fresh' ∧ (fresh' = true → th'.reads ≠ []))
    (s : σ) (lock : Option T) : Metered n
      {x with state := s, lock := lock, threads := Function.update x.threads a.actor (some th')}
      (a::ls) := by
  refine h.resume a (fun th₁ h₁ => ?_) s lock
  obtain rfl := Option.some.inj h₁
  obtain ⟨-,fresh,hord,hreads⟩ := h _ th hi
  obtain ⟨hpos,hnext⟩ := hth _ fresh hord hreads
  rw [hone,← Nat.sub_sub]
  exact ⟨Nat.lt_of_sub_pos hpos,hnext⟩

theorem metered_step (hcode : ∀ op, (w.code op).Orderly n false) (h : Metered n x ls)
    (hstep : Step w x a y) : Metered n y (a::ls) := by
  cases hstep with
  | start i op hi hlock =>
    refine h.resume (.start i op) (fun th' h' => ?_) _ _
    obtain rfl := Option.some.inj h'
    have hnone : spent i (.start i op::ls) = 0 := if_pos rfl
    simp only [Action.actor,hnone]
    exact ⟨n.zero_le,false,hcode op,(absurd · Bool.false_ne_true)⟩
  | read i th k hi hrest =>
    refine h.advance (a := .read i) hi (if_pos rfl) (fun m fresh hord hreads => ?_) _ _
    rw [hrest] at hord
    exact ⟨hord.1,true,hord.2 x.state,fun _ => List.cons_ne_nil _ _⟩
  | call i th c k r hi hrest hr =>
    refine h.advance (a := .call i c r) hi (if_pos rfl) (fun m fresh hord hreads => ?_) _ _
    rw [hrest] at hord
    exact ⟨hord.1,fresh,hord.2 r,hreads⟩
  | store i th seen s k hi hrest hseen =>
    refine h.advance (a := .store i) hi (if_pos rfl) (fun m fresh hord hreads => ?_) _ _
    rw [hrest] at hord
    exact ⟨hord.1,false,hord.2.2,(absurd · Bool.false_ne_true)⟩
  | finish i th value hi hend =>
    refine h.resume (.finish i th.op th.trace value) (fun th' h' => ?_) _ _
    cases h'

theorem runs_metered (hcode : ∀ op, (w.code op).Orderly n false) {s₀ : σ}
    (h : Runs (Step w) {state := s₀} ls x) : Metered n x ls := by
  refine h.invariant (I := Metered n) ?_ fun x ls a y hx hstep => metered_step hcode hx hstep
  intro i th hi
  cases hi

/-- A thread can always go on by itself, to the end of its program or to where it stops
the process. The induction is on what is left of the program. -/
theorem exists_finish (henv : ∀ c, ∃ r, w.env c r) {i : T} {p : Prog σ ε C R α} {m : ℕ}
    {fresh : Bool} (hord : p.Orderly m fresh) {x : System T O σ ε C R α}
    {th : Thread O σ ε C R α} (hi : x.threads i = some th) (hp : th.rest = p)
    (hreads : fresh = true → th.reads ≠ []) :
    ∃ ls y, Runs (Step w) x ls y ∧ (∀ a ∈ ls, a.actor = i) ∧ (∀ j ≠ i, y.threads j = x.threads j) ∧
      ∀ th', y.threads i = some th' → th'.Stopped := by
  induction p generalizing m fresh x th with
  | ret v =>
    refine ⟨_,_,.next (.start x) (.finish i th (.ok v) hi (by rw [hp]; rfl)),?_,?_,?_⟩
    · simp [Action.actor]
    · intro j hj
      simp [Function.update_of_ne hj]
    · simp
  | fail e =>
    refine ⟨_,_,.next (.start x) (.finish i th (.error e) hi (by rw [hp]; rfl)),?_,?_,?_⟩
    · simp [Action.actor]
    · intro j hj
      simp [Function.update_of_ne hj]
    · simp
  | halt =>
    refine ⟨[],x,.start x,by simp,fun _ _ => rfl,fun th' h' => ?_⟩
    obtain rfl := Option.some.inj (hi.symm.trans h')
    exact hp
  | get k ih =>
    obtain ⟨ls,y,hrun,hact,hrest,hend⟩ := ih x.state (hord.2 x.state)
      (x := {x with
        threads := Function.update x.threads i
          (some {th with rest := k x.state, reads := x.state::th.reads})})
      (Function.update_self ..) rfl (fun _ => List.cons_ne_nil _ _)
    refine ⟨_,y,hrun.after (.read i th k hi hp),?_,fun j hj => ?_,hend⟩
    · simpa [or_imp,forall_and,Action.actor] using hact
    · rw [hrest j hj]
      exact Function.update_of_ne hj ..
  | put s k ih =>
    obtain ⟨seen,hseen⟩ : ∃ seen, th.reads.head? = some seen :=
      Option.isSome_iff_exists.mp (List.isSome_head?.mpr (hreads hord.2.1))
    obtain ⟨ls,y,hrun,hact,hrest,hend⟩ := ih hord.2.2
      (x := {x with
        state := w.store seen s x.state
        threads := Function.update x.threads i (some {th with rest := k})})
      (Function.update_self ..) rfl (absurd · Bool.false_ne_true)
    refine ⟨_,y,hrun.after (.store i th seen s k hi hp hseen),?_,fun j hj => ?_,hend⟩
    · simpa [or_imp,forall_and,Action.actor] using hact
    · rw [hrest j hj]
      exact Function.update_of_ne hj ..
  | ask c k ih =>
    obtain ⟨r,hr⟩ := henv c
    obtain ⟨ls,y,hrun,hact,hrest,hend⟩ := ih r (hord.2 r)
      (x := {x with
        threads := Function.update x.threads i
          (some {th with rest := k r, trace := th.trace ++ [(c,r)]})})
      (Function.update_self ..) rfl hreads
    refine ⟨_,y,hrun.after (.call i th c k r hi hp hr),?_,fun j hj => ?_,hend⟩
    · simpa [or_imp,forall_and,Action.actor] using hact
    · rw [hrest j hj]
      exact Function.update_of_ne hj ..

theorem runs_finite {s₀ : σ} (h : Runs (Step w) {state := s₀} ls x) :
    ∀ i, x.threads i ≠ none → i ∈ ls.map Action.actor := by
  refine h.invariant (I := fun x ls => ∀ i, x.threads i ≠ none → i ∈ ls.map Action.actor)
    (fun i hi => absurd rfl hi) ?_
  intro x ls a y hx hstep i hi
  by_cases hact : i = a.actor
  · exact hact ▸ List.mem_cons_self
  · refine List.mem_cons_of_mem _ (hx i ?_)
    cases hstep <;> simp only [Action.actor] at hact <;>
      simpa only [Function.update_of_ne hact] using hi

/-- All threads of a finite set can come to their ends one after the other. -/
theorem exists_finish_all (henv : ∀ c, ∃ r, w.env c r) (hcode : ∀ op, (w.code op).Orderly n false)
    {s₀ : σ} (is : List T) (h : Runs (Step w) {state := s₀} ls x)
    (hlive : ∀ i th, x.threads i = some th → i ∈ is ∨ th.Stopped) :
    ∃ more y, Runs (Step w) {state := s₀} (more ++ ls) y ∧ (∀ a ∈ more, a.actor ∈ is) ∧
      ∀ i th, y.threads i = some th → th.Stopped := by
  induction is generalizing ls x with
  | nil => exact ⟨[],x,h,by simp,fun i th hi => (hlive i th hi).resolve_left (List.not_mem_nil)⟩
  | cons i is ih =>
    have hnext : ∃ more y, Runs (Step w) {state := s₀} (more ++ ls) y ∧ (∀ a ∈ more, a.actor = i) ∧
        (∀ j ≠ i, y.threads j = x.threads j) ∧ ∀ th, y.threads i = some th → th.Stopped := by
      cases hi : x.threads i with
      | none =>
        refine ⟨[],x,h,by simp,fun _ _ => rfl,fun th hth => ?_⟩
        rw [hi] at hth
        cases hth
      | some th =>
        obtain ⟨-,fresh,hord,hreads⟩ := runs_metered hcode h i th hi
        obtain ⟨more,y,hrun,hact,hrest,hend⟩ := exists_finish henv hord hi rfl hreads
        exact ⟨more,y,h.trans hrun,hact,hrest,hend⟩
    obtain ⟨more,y,hrun,hact,hrest,hend⟩ := hnext
    have hlive' : ∀ j th, y.threads j = some th → j ∈ is ∨ th.Stopped := by
      intro j th hj
      by_cases hji : j = i
      · subst hji
        exact .inr (hend th hj)
      · rw [hrest j hji] at hj
        rcases hlive j th hj with hmem | hstop
        · exact .inl ((List.mem_cons.mp hmem).resolve_left hji)
        · exact .inr hstop
    obtain ⟨more',z,hrun',hact',hend'⟩ := ih hrun hlive'
    refine ⟨more' ++ more,z,by rwa [List.append_assoc],fun a ha => ?_,hend'⟩
    rcases List.mem_append.mp ha with ha | ha
    · exact List.mem_cons_of_mem _ (hact' a ha)
    · exact hact a ha ▸ List.mem_cons_self

end Progress

section Serial
variable {T O σ ε C R α : Type} [DecidableEq T] {w : Workload O σ ε C R α} {n : ℕ}
  {x y : System T O σ ε C R α} {a : Action T O ε C R α} {ls : List (Action T O ε C R α)}

def outcomeOf (s : σ) : Except ε α → Outcome σ ε α
  | .ok a => .ok a s
  | .error e => .err e s

/-- A program that runs from its start to its end with nobody else around. -/
def Alone (w : Workload O σ ε C R α) (s : σ) (c : O × List (C × R) × Except ε α) (s' : σ) : Prop :=
  Prog.Exec w.env (w.code c.1) s c.2.1 (outcomeOf s' c.2.2)

theorem exec_of_ending {p : Prog σ ε C R α} {value : Except ε α} (h : ending p = some value)
    (env : C → R → Prop) (s : σ) : Prog.Exec env p s [] (outcomeOf s value) := by
  rcases ending_cases h with ⟨v,rfl,rfl⟩ | ⟨e,rfl,rfl⟩
  · exact .ret v s
  · exact .fail e s

/-- The one thread that runs has gone part of the way from the state `s`: whatever
completes it completes its whole program from `s`. -/
structure Halfway (w : Workload O σ ε C R α) (s state : σ) (th : Thread O σ ε C R α) : Prop where
  completes : ∀ t o, Prog.Exec w.env th.rest state t o →
    Prog.Exec w.env (w.code th.op) s (th.trace ++ t) o
  orderly : ∃ n fresh, th.rest.Orderly n fresh ∧ (fresh = true → th.reads.head? = some state)

/-- The programs that ended have run one after the other and have led to the state `s`;
at most one more is under way from there, and it holds the lock. -/
structure Serial (w : Workload O σ ε C R α) (s₀ s : σ) (x : System T O σ ε C R α)
    (ls : List (Action T O ε C R α)) : Prop where
  runs : Runs (Alone w) s₀ (ended ls) s
  idle : x.lock = none → x.state = s
  only : ∀ i th, x.threads i = some th → x.lock = some i
  halfway : ∀ i th, x.threads i = some th → Halfway w s x.state th

section Steps
variable {s₀ s : σ} {i : T}

theorem Serial.resume (h : Serial w s₀ s x ls) {th th' : Thread O σ ε C R α}
    (hi : x.threads i = some th) {s' : σ} (hth : Halfway w s s' th') (ha : a.ended = none) :
    Serial w s₀ s {x with state := s', threads := Function.update x.threads i (some th')} (a::ls) := by
  have hlock := h.only i th hi
  have hothers : ∀ j th₁, Function.update x.threads i (some th') j = some th₁ → j = i := by
    intro j th₁ hj
    by_contra hji
    rw [Function.update_of_ne hji] at hj
    exact hji (Option.some.inj ((h.only j th₁ hj).symm.trans hlock))
  refine ⟨?_,fun hnone => ?_,fun j th₁ hj => ?_,fun j th₁ hj => ?_⟩
  · have hsame : ended (a::ls) = ended ls := List.filterMap_cons_none ha
    rw [hsame]
    exact h.runs
  · rw [hlock] at hnone
    cases hnone
  · rw [hothers j th₁ hj]
    exact hlock
  · obtain rfl := hothers j th₁ hj
    simp only [Function.update_self,Option.some.injEq] at hj
    exact hj ▸ hth

theorem Serial.start (h : Serial w s₀ s x ls) {op : O} (hlocked : w.locked op = true)
    (hord : (w.code op).Orderly n false) (hlock : x.lock = none) :
    Serial w s₀ s {x with
      lock := if w.locked op then some i else x.lock
      threads := Function.update x.threads i (some ⟨op,w.code op,[],[]⟩)} (.start i op::ls) := by
  have hothers : ∀ j th, Function.update x.threads i (some ⟨op,w.code op,[],[]⟩) j = some th →
      j = i ∧ th = ⟨op,w.code op,[],[]⟩ := by
    intro j th hj
    by_cases hji : j = i
    · subst hji
      simp only [Function.update_self,Option.some.injEq] at hj
      exact ⟨rfl,hj.symm⟩
    · rw [Function.update_of_ne hji] at hj
      have hheld := h.only j th hj
      rw [hlock] at hheld
      cases hheld
  refine ⟨h.runs,fun hnone => ?_,fun j th hj => ?_,fun j th hj => ?_⟩
  · simp [hlocked] at hnone
  · obtain ⟨rfl,-⟩ := hothers j th hj
    simp [hlocked]
  · obtain ⟨-,rfl⟩ := hothers j th hj
    refine ⟨fun t o he => ?_,n,false,hord,(absurd · Bool.false_ne_true)⟩
    rw [h.idle hlock] at he
    exact he

theorem Serial.finish (h : Serial w s₀ s x ls) {th : Thread O σ ε C R α} {value : Except ε α}
    (hi : x.threads i = some th) (hend : ending th.rest = some value) :
    Serial w s₀ x.state {x with
      lock := if w.locked th.op then none else x.lock
      threads := Function.update x.threads i none} (.finish i th.op th.trace value::ls) := by
  have hnone : ∀ j, Function.update x.threads i none j = none := by
    intro j
    by_cases hji : j = i
    · subst hji
      exact Function.update_self ..
    · rw [Function.update_of_ne hji]
      cases hj : x.threads j with
      | none => rfl
      | some th₁ =>
        have hheld := (h.only j th₁ hj).symm.trans (h.only i th hi)
        exact absurd (Option.some.inj hheld) hji
  have hlast : Alone w s (th.op,th.trace,value) x.state := by
    have hexec := (h.halfway i th hi).completes _ _ (exec_of_ending hend w.env x.state)
    rwa [List.append_nil] at hexec
  have hidle : ∀ j th₁, Function.update x.threads i none j ≠ some th₁ := by
    intro j th₁
    rw [hnone j]
    simp
  exact ⟨.next h.runs hlast,fun _ => rfl,fun j th₁ hj => absurd hj (hidle j th₁),
    fun j th₁ hj => absurd hj (hidle j th₁)⟩

theorem serial_step (hcode : ∀ op, (w.code op).Orderly n false)
    (hstore : ∀ seen new, w.store seen new seen = new) (h : Serial w s₀ s x ls)
    (hstep : Step w x a y) (hlocked : ∀ i op, a = .start i op → w.locked op = true) :
    ∃ s', Serial w s₀ s' y (a::ls) := by
  cases hstep with
  | start i op hi hlock =>
    exact ⟨s,h.start (hlocked i op rfl) (hcode op) (hlock (hlocked i op rfl))⟩
  | read i th k hi hrest =>
    obtain ⟨hcomp,m,fresh,hord,-⟩ := h.halfway i th hi
    rw [hrest] at hord hcomp
    refine ⟨s,h.resume hi ⟨fun t o he => hcomp t o (.get he),m - 1,true,hord.2 x.state,fun _ => rfl⟩ rfl⟩
  | call i th c k r hi hrest hr =>
    obtain ⟨hcomp,m,fresh,hord,hreads⟩ := h.halfway i th hi
    rw [hrest] at hord hcomp
    refine ⟨s,h.resume hi ⟨fun t o he => ?_,m - 1,fresh,hord.2 r,hreads⟩ rfl⟩
    rw [List.append_assoc]
    exact hcomp _ o (.ask hr he)
  | store i th seen new k hi hrest hseen =>
    obtain ⟨hcomp,m,fresh,hord,hreads⟩ := h.halfway i th hi
    rw [hrest] at hord hcomp
    -- nobody else writes, so what was read last is still the state
    have hsame : seen = x.state := Option.some.inj (hseen.symm.trans (hreads hord.2.1))
    rw [hsame,hstore]
    exact ⟨s,h.resume hi
      ⟨fun t o he => hcomp t o (.put he),m - 1,false,hord.2.2,(absurd · Bool.false_ne_true)⟩ rfl⟩
  | finish i th value hi hend => exact ⟨x.state,h.finish hi hend⟩

/-- Programs that all take the lock behave as if they had run one after the other, in
the order in which they ended. -/
theorem runs_serial (hcode : ∀ op, (w.code op).Orderly n false)
    (hstore : ∀ seen new, w.store seen new seen = new)
    (h : Runs (Step w) {state := s₀} ls x)
    (hlocked : ∀ i op, .start i op ∈ ls → w.locked op = true) :
    ∃ s, Serial w s₀ s x ls := by
  induction h with
  | start => exact ⟨s₀,.start s₀,fun _ => rfl,by simp,by simp⟩
  | next _ hstep ih =>
    obtain ⟨s,hs⟩ := ih fun i op hmem => hlocked i op (List.mem_cons_of_mem _ hmem)
    exact serial_step hcode hstore hs hstep
      fun i op ha => hlocked i op (ha ▸ List.mem_cons_self)

end Steps

end Serial

end Shared
end VmplApps
