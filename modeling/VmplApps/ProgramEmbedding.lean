import VmplApps.SharedLocks

/-! Programs that run inside larger programs. `embed` renames the calls of a program
and turns its errors into values; `Asks` and `Stateless` say what a program calls and
that it leaves the state alone; `onPart` runs a program on a part of a larger state.
When the programs of one workload are embeddings of those of another or stateless, every
interleaving of the first is one of the second with other steps in between:
`runs_mirrored`. -/
namespace VmplApps

namespace Prog
variable {σ ε ε' C C' R R' α β : Type}

/-- Run a program as part of another one: its calls are renamed, it sees of a reply
what it knows about, and an error is a value to its caller. -/
def embed (call : C → C') (view : R' → R) : Prog σ ε C R α → Prog σ ε' C' R' (Except ε α)
  | .ret a => .ret (.ok a)
  | .fail e => .ret (.error e)
  | .halt => .halt
  | .get k => .get fun s => (k s).embed call view
  | .put s k => .put s (k.embed call view)
  | .ask c k => .ask (call c) fun r => (k (view r)).embed call view

/-- Whatever the program reads and whatever it is answered, all its calls satisfy `P`. -/
def Asks (P : C → Prop) : Prog σ ε C R α → Prop
  | .ret _ | .fail _ | .halt => True
  | .get k => ∀ s, (k s).Asks P
  | .put _ k => k.Asks P
  | .ask c k => P c ∧ ∀ r, (k r).Asks P

def Stateless : Prog σ ε C R α → Prop
  | .ret _ | .fail _ | .halt => True
  | .get _ | .put _ _ => False
  | .ask _ k => ∀ r, (k r).Stateless

section Rules
variable {P : C → Prop} {p : Prog σ ε C R α}

theorem asks_bind {f : α → Prog σ ε C R β} (hp : p.Asks P) (hf : ∀ a, (f a).Asks P) :
    (p >>= f).Asks P := by
  change (p.bind f).Asks P
  induction p with
  | ret a => exact hf a
  | fail | halt => trivial
  | get k ih => exact fun s => ih s (hp s)
  | put s k ih => exact ih hp
  | ask c k ih => exact ⟨hp.1,fun r => ih r (hp.2 r)⟩

theorem asks_call {c : C} (h : P c) : (call c : Prog σ ε C R R).Asks P := ⟨h,fun _ => trivial⟩

theorem asks_ite {c : Prop} [Decidable c] {q : Prog σ ε C R α} (hp : p.Asks P) (hq : q.Asks P) :
    (if c then p else q).Asks P := by
  split_ifs
  · exact hp
  · exact hq

theorem Asks.mono (h : p.Asks P) {Q : C → Prop} (hPQ : ∀ c, P c → Q c) : p.Asks Q := by
  induction p with
  | ret | fail | halt => trivial
  | get k ih => exact fun s => ih s (h s)
  | put s k ih => exact ih h
  | ask c k ih => exact ⟨hPQ c h.1,fun r => ih r (h.2 r)⟩

theorem asks_of_forall (h : ∀ c, P c) : p.Asks P := by
  induction p with
  | ret | fail | halt => trivial
  | get k ih => exact ih
  | put s k ih => exact ih
  | ask c k ih => exact ⟨h c,ih⟩

theorem asks_embed (call : C → C') (view : R' → R) (p : Prog σ ε C R α) :
    (p.embed call view : Prog σ ε' C' R' (Except ε α)).Asks fun c => ∃ c₀, c = call c₀ := by
  induction p with
  | ret | fail | halt => trivial
  | get k ih => exact ih
  | put s k ih => exact ih
  | ask c k ih => exact ⟨⟨c,rfl⟩,fun r => ih (view r)⟩

theorem stateless_bind {f : α → Prog σ ε C R β} (hp : p.Stateless) (hf : ∀ a, (f a).Stateless) :
    (p >>= f).Stateless := by
  change (p.bind f).Stateless
  induction p with
  | ret a => exact hf a
  | fail | halt => trivial
  | get | put => exact hp.elim
  | ask c k ih => exact fun r => ih r (hp r)

theorem stateless_call (c : C) : (call c : Prog σ ε C R R).Stateless := fun _ => trivial

theorem stateless_ite {c : Prop} [Decidable c] {q : Prog σ ε C R α} (hp : p.Stateless)
    (hq : q.Stateless) : (if c then p else q).Stateless := by
  split_ifs
  · exact hp
  · exact hq

theorem stateless_embed {call : C → C'} {view : R' → R} (hp : p.Stateless) :
    (p.embed call view : Prog σ ε' C' R' (Except ε α)).Stateless := by
  induction p with
  | ret | fail | halt => trivial
  | get | put => exact hp.elim
  | ask c k ih => exact fun r => ih (view r) (hp (view r))

end Rules

theorem Stateless.final {p : Prog σ ε C R α} (hp : p.Stateless) {env : C → R → Prop} {s s' : σ}
    {t : List (C × R)} {o : Outcome σ ε α} (h : Exec env p s t o) (ho : o.final = some s') : s' = s := by
  induction h with
  | ret | fail => exact (Option.some.inj ho).symm
  | halt => cases ho
  | get | put => exact hp.elim
  | ask _ _ ih => exact ih (hp _) ho

/-- An embedded program followed by a plain computation on its result. -/
def framed (call : C → C') (view : R' → R) (wrap : Except ε α → β) (p : Prog σ ε C R α) :
    Prog σ ε' C' R' β :=
  p.embed call view >>= fun r => .ret (wrap r)

def frameOutcome (wrap : Except ε α → β) : Outcome σ ε α → Outcome σ ε' β
  | .ok a s => .ok (wrap (.ok a)) s
  | .err e s => .ok (wrap (.error e)) s
  | .halted => .halted

theorem exec_framed {call : C → C'} {view : R' → R} {wrap : Except ε α → β} {env : C → R → Prop}
    {env' : C' → R' → Prop} (henv : ∀ c r, env' (call c) r → env c (view r)) {p : Prog σ ε C R α}
    {s : σ} {t : List (C' × R')} {o : Outcome σ ε' β}
    (h : Exec env' (p.framed call view wrap) s t o) :
    ∃ t₀ o₀, Exec env p s t₀ o₀ ∧ o = frameOutcome wrap o₀ ∧
      List.Forall₂ (fun x y => x.1 = call y.1 ∧ y.2 = view x.2) t t₀ := by
  induction p generalizing s t with
  | ret a =>
    cases h
    exact ⟨[],_,.ret a s,rfl,.nil⟩
  | fail e =>
    cases h
    exact ⟨[],_,.fail e s,rfl,.nil⟩
  | halt =>
    cases h
    exact ⟨[],_,.halt s,rfl,.nil⟩
  | get k ih =>
    cases h with
    | get h =>
      obtain ⟨t₀,o₀,hexec,ho,htrace⟩ := ih s h
      exact ⟨t₀,o₀,.get hexec,ho,htrace⟩
  | put s' k ih =>
    cases h with
    | put h =>
      obtain ⟨t₀,o₀,hexec,ho,htrace⟩ := ih h
      exact ⟨t₀,o₀,.put hexec,ho,htrace⟩
  | ask c k ih =>
    cases h with
    | ask hr h =>
      obtain ⟨t₀,o₀,hexec,ho,htrace⟩ := ih _ h
      exact ⟨_,o₀,.ask (henv c _ hr) hexec,ho,.cons ⟨rfl,rfl⟩ htrace⟩

theorem wp_framed {call : C → C'} {view : R' → R} {wrap : Except ε α → β} {env : C → R → Prop}
    {env' : C' → R' → Prop} (henv : ∀ c r, env' (call c) r → env c (view r)) {p : Prog σ ε C R α}
    {s : σ} {P : List (C × R) → Outcome σ ε α → Prop} (h : wp env p s P) :
    wp env' (p.framed call view wrap : Prog σ ε' C' R' β) s fun t o => ∃ t₀ o₀,
      Exec env p s t₀ o₀ ∧ P t₀ o₀ ∧ o = frameOutcome wrap o₀ ∧
        List.Forall₂ (fun x y => x.1 = call y.1 ∧ y.2 = view x.2) t t₀ := by
  refine (wp_iff _ _ _ _).mpr fun t o hexec => ?_
  obtain ⟨t₀,o₀,hinner,ho,htrace⟩ := exec_framed henv hexec
  exact ⟨t₀,o₀,hinner,(wp_iff _ _ _ _).mp h t₀ o₀ hinner,ho,htrace⟩

section Parts
variable {τ : Type}

structure Part (τ σ : Type) where
  read : τ → σ
  write : τ → σ → τ
  read_write : ∀ t s, read (write t s) = s
  write_write : ∀ t s s', write (write t s) s' = write t s'
  write_read : ∀ t, write t (read t) = t

def onPart (part : Part τ σ) : Prog σ ε C R α → Prog τ ε C R α
  | .ret a => .ret a
  | .fail e => .fail e
  | .halt => .halt
  | .get k => .get fun t => (k (part.read t)).onPart part
  | .put s k => .get fun t => .put (part.write t s) (k.onPart part)
  | .ask c k => .ask c fun r => (k r).onPart part

def Part.outcome (part : Part τ σ) (t : τ) : Outcome σ ε α → Outcome τ ε α
  | .ok a s => .ok a (part.write t s)
  | .err e s => .err e (part.write t s)
  | .halted => .halted

theorem Part.outcome_write (part : Part τ σ) (t : τ) (s : σ) (o : Outcome σ ε α) :
    part.outcome (part.write t s) o = part.outcome t o := by
  cases o <;> simp [outcome,part.write_write]

theorem wp_onPart (part : Part τ σ) (env : C → R → Prop) (p : Prog σ ε C R α) (t : τ)
    (Q : List (C × R) → Outcome τ ε α → Prop) :
    wp env (p.onPart part) t Q ↔ wp env p (part.read t) fun tr o => Q tr (part.outcome t o) := by
  induction p generalizing t Q with
  | ret a => simp [onPart,wp,Part.outcome,part.write_read]
  | fail e => simp [onPart,wp,Part.outcome,part.write_read]
  | halt => rfl
  | get k ih => exact ih (part.read t) t Q
  | put s k ih =>
    refine (ih (part.write t s) Q).trans ?_
    rw [part.read_write]
    simp only [part.outcome_write]
    rfl
  | ask c k ih => exact forall_congr' fun r => imp_congr_right fun _ => ih r t fun tr o => Q ((c,r)::tr) o

end Parts

end Prog

namespace Shared

section Mediation
variable {T O σ ε C R α : Type} [DecidableEq T] {w : Workload O σ ε C R α} {P : O → C → Prop}
  {x y : System T O σ ε C R α} {a : Action T O ε C R α} {ls : List (Action T O ε C R α)}

/-- Every running thread will only make calls that its program may make. -/
def Abiding (P : O → C → Prop) (x : System T O σ ε C R α) : Prop :=
  ∀ i th, x.threads i = some th → th.rest.Asks (P th.op)

theorem Abiding.resume (h : Abiding P x) {i : T} {o : Option (Thread O σ ε C R α)}
    (hth : ∀ th, o = some th → th.rest.Asks (P th.op)) (s : σ) (lock : Option T) :
    Abiding P {x with state := s, lock := lock, threads := Function.update x.threads i o} := by
  intro j th hj
  by_cases hji : j = i
  · subst hji
    simp only [Function.update_self] at hj
    exact hth th hj
  · simp only [Function.update_of_ne hji] at hj
    exact h j th hj

theorem abiding_step (hcode : ∀ op, (w.code op).Asks (P op)) (h : Abiding P x)
    (hstep : Step w x a y) : Abiding P y := by
  cases hstep with
  | start i op hi hlock =>
    refine h.resume (fun th hth => ?_) _ _
    obtain rfl := Option.some.inj hth
    exact hcode op
  | read i th k hi hrest =>
    refine h.resume (fun th' hth => ?_) _ _
    obtain rfl := Option.some.inj hth
    have hasks := h i th hi
    rw [hrest] at hasks
    exact hasks x.state
  | call i th c k r hi hrest hr =>
    refine h.resume (fun th' hth => ?_) _ _
    obtain rfl := Option.some.inj hth
    have hasks := h i th hi
    rw [hrest] at hasks
    exact hasks.2 r
  | store i th seen s k hi hrest hseen =>
    refine h.resume (fun th' hth => ?_) _ _
    obtain rfl := Option.some.inj hth
    have hasks := h i th hi
    rw [hrest] at hasks
    exact hasks
  | finish i th value hi hend =>
    refine h.resume (fun th' hth => ?_) _ _
    cases hth

def startedBy (i : T) : List (Action T O ε C R α) → Option O
  | [] => none
  | .start j op::ls => if j = i then some op else startedBy i ls
  | _::ls => startedBy i ls

theorem runs_startedBy {s₀ : σ} (h : Runs (Step w) {state := s₀} ls x) :
    ∀ i th, x.threads i = some th → startedBy i ls = some th.op := by
  refine h.invariant (I := fun x ls => ∀ i th, x.threads i = some th → startedBy i ls = some th.op)
    (by simp) ?_
  intro x ls a y hx hstep j th' hj
  cases hstep with
  | start i op hi hlock =>
    by_cases hji : j = i
    · subst hji
      simp only [Function.update_self,Option.some.injEq] at hj
      obtain rfl := hj
      exact if_pos rfl
    · simp only [Function.update_of_ne hji] at hj
      exact (if_neg (Ne.symm hji)).trans (hx j th' hj)
  | read i th k hi | call i th c k r hi | store i th seen s k hi =>
    by_cases hji : j = i
    · subst hji
      simp only [Function.update_self,Option.some.injEq] at hj
      obtain rfl := hj
      exact hx j th hi
    · simp only [Function.update_of_ne hji] at hj
      exact hx j th' hj
  | finish i th value hi hend =>
    by_cases hji : j = i
    · subst hji
      simp at hj
    · simp only [Function.update_of_ne hji] at hj
      exact hx j th' hj

/-- In every interleaving each call was permitted to the program that made it. -/
def Permitted (P : O → C → Prop) : List (Action T O ε C R α) → Prop
  | [] => True
  | .call i c _::ls => (∃ op, startedBy i ls = some op ∧ P op c) ∧ Permitted P ls
  | _::ls => Permitted P ls

theorem runs_permitted (hcode : ∀ op, (w.code op).Asks (P op)) {s₀ : σ}
    (h : Runs (Step w) {state := s₀} ls x) : Permitted P ls := by
  have hboth : Abiding P x ∧ Permitted P ls := by
    induction h with
    | start => exact ⟨by simp [Abiding],trivial⟩
    | next hrun hstep ih =>
      refine ⟨abiding_step hcode ih.1 hstep,?_⟩
      cases hstep with
      | start | read | store | finish => exact ih.2
      | call i th c k r hi hrest hr =>
        have hasks := ih.1 i th hi
        rw [hrest] at hasks
        exact ⟨⟨th.op,runs_startedBy hrun i th hi,hasks.1⟩,ih.2⟩
  exact hboth.2

/-- A thread whose program leaves the state alone is a run of that program on its own,
as far as it has come. -/
def Detached (w : Workload O σ ε C R α) (x : System T O σ ε C R α) : Prop :=
  ∀ i th, x.threads i = some th → (w.code th.op).Stateless → th.rest.Stateless ∧
    ∀ s t o, Prog.Exec w.env th.rest s t o → Prog.Exec w.env (w.code th.op) s (th.trace ++ t) o

theorem detached_step (h : Detached w x) (hstep : Step w x a y) : Detached w y := by
  intro j th' hj hop
  cases hstep with
  | start i op hi hlock =>
    by_cases hji : j = i
    · subst hji
      simp only [Function.update_self,Option.some.injEq] at hj
      subst hj
      exact ⟨hop,fun s t o he => he⟩
    · simp only [Function.update_of_ne hji] at hj
      exact h j th' hj hop
  | read i th k hi hrest | store i th seen s k hi hrest =>
    by_cases hji : j = i
    · subst hji
      simp only [Function.update_self,Option.some.injEq] at hj
      subst hj
      have hth := (h j th hi hop).1
      rw [hrest] at hth
      exact hth.elim
    · simp only [Function.update_of_ne hji] at hj
      exact h j th' hj hop
  | call i th c k r hi hrest hr =>
    by_cases hji : j = i
    · subst hji
      simp only [Function.update_self,Option.some.injEq] at hj
      subst hj
      obtain ⟨hth,hexec⟩ := h j th hi hop
      rw [hrest] at hth hexec
      refine ⟨hth r,fun s t o he => ?_⟩
      rw [List.append_assoc]
      exact hexec s _ o (.ask hr he)
    · simp only [Function.update_of_ne hji] at hj
      exact h j th' hj hop
  | finish i th value hi hend =>
    by_cases hji : j = i
    · subst hji
      simp at hj
    · simp only [Function.update_of_ne hji] at hj
      exact h j th' hj hop

/-- Whatever the other threads do, a program that leaves the state alone ends as it
does on its own. -/
theorem runs_detached {s₀ : σ} (h : Runs (Step w) {state := s₀} ls x) :
    ∀ i op t value, .finish i op t value ∈ ls → (w.code op).Stateless →
      ∀ s, Prog.Exec w.env (w.code op) s t (outcomeOf s value) := by
  have hboth : Detached w x ∧ ∀ i op t value, .finish i op t value ∈ ls → (w.code op).Stateless →
      ∀ s, Prog.Exec w.env (w.code op) s t (outcomeOf s value) := by
    induction h with
    | start => exact ⟨by simp [Detached],by simp⟩
    | next _ hstep ih =>
      refine ⟨detached_step ih.1 hstep,fun j op t value hmem hop s => ?_⟩
      rcases List.mem_cons.mp hmem with hlast | hmem
      · cases hstep with
        | start | read | call | store => cases hlast
        | finish i th v hi hend =>
          cases hlast
          have hexec := (ih.1 j th hi hop).2 s _ _ (exec_of_ending hend w.env s)
          rwa [List.append_nil] at hexec
      · exact ih.2 j op t value hmem hop s
  exact hboth.2

end Mediation

section Frames
variable {σ ε ε' C C' R R' α α' : Type} {call : C' → C} {view : R → R'} {wrap : Except ε' α' → α}
  {p : Prog σ ε' C' R' α'}

theorem framed_get {k : σ → Prog σ ε C R α} (h : p.framed call view wrap = .get k) :
    ∃ k₀, p = .get k₀ ∧ ∀ s, k s = (k₀ s).framed call view wrap := by
  cases p with
  | get k₀ => exact ⟨k₀,rfl,fun s => (congrFun (Prog.get.inj h) s).symm⟩
  | ret | fail | halt | put | ask => cases h

theorem framed_put {s : σ} {k : Prog σ ε C R α} (h : p.framed call view wrap = .put s k) :
    ∃ k₀, p = .put s k₀ ∧ k = k₀.framed call view wrap := by
  cases p with
  | put s₀ k₀ =>
    obtain ⟨rfl,rfl⟩ := Prog.put.inj h
    exact ⟨k₀,rfl,rfl⟩
  | ret | fail | halt | get | ask => cases h

theorem framed_ask {c : C} {k : R → Prog σ ε C R α} (h : p.framed call view wrap = .ask c k) :
    ∃ c₀ k₀, p = .ask c₀ k₀ ∧ c = call c₀ ∧ ∀ r, k r = (k₀ (view r)).framed call view wrap := by
  cases p with
  | ask c₀ k₀ =>
    obtain ⟨hc,hk⟩ := Prog.ask.inj h
    exact ⟨c₀,k₀,rfl,hc.symm,fun r => (congrFun hk r).symm⟩
  | ret | fail | halt | get | put => cases h

theorem framed_ending {value : Except ε α} (h : ending (p.framed call view wrap) = some value) :
    ∃ r, ending p = some r ∧ value = .ok (wrap r) := by
  cases p with
  | ret a => exact ⟨.ok a,rfl,(Option.some.inj h).symm⟩
  | fail e => exact ⟨.error e,rfl,(Option.some.inj h).symm⟩
  | halt | get | put | ask => cases h

end Frames

section Mirrors
variable {T O O' σ ε ε' C C' R R' α α' : Type} {w : Workload O σ ε C R α}
  {v : Workload O' σ ε' C' R' α'}

/-- What two workloads must agree on: a program of the first is one of the second with
a computation behind it, or it leaves the state and the lock alone. -/
structure Embedding (w : Workload O σ ε C R α) (v : Workload O' σ ε' C' R' α') where
  inner : O → Option O'
  call : C' → C
  view : R → R'
  wrap : O → Except ε' α' → α
  code : ∀ op op', inner op = some op' → w.code op = (v.code op').framed call view (wrap op)
  locked : ∀ op op', inner op = some op' → w.locked op = v.locked op'
  plain : ∀ op, inner op = none → (w.code op).Stateless ∧ w.locked op = false
  env : ∀ c r, w.env (call c) r → v.env c (view r)
  store : w.store = v.store

namespace Embedding
variable (e : Embedding w v)

def Same (x : C × R) (y : C' × R') : Prop := x.1 = e.call y.1 ∧ y.2 = e.view x.2

structure Echo (d : O × List (C × R) × Except ε α) (d' : O' × List (C' × R') × Except ε' α') :
    Prop where
  op : e.inner d.1 = some d'.1
  trace : List.Forall₂ e.Same d.2.1 d'.2.1
  value : d.2.2 = .ok (e.wrap d.1 d'.2.2)

/-- A thread and its counterpart, if it runs a program that has one. -/
inductive Mirror : Option (Thread O σ ε C R α) → Option (Thread O' σ ε' C' R' α') → Prop
  | idle : Mirror none none
  | plain (th : Thread O σ ε C R α) : e.inner th.op = none → th.rest.Stateless → Mirror (some th) none
  | inside (th : Thread O σ ε C R α) (th' : Thread O' σ ε' C' R' α') : e.inner th.op = some th'.op →
      th.rest = th'.rest.framed e.call e.view (e.wrap th.op) → th.reads = th'.reads →
      List.Forall₂ e.Same th.trace th'.trace → Mirror (some th) (some th')

structure Mirrors (x : System T O σ ε C R α) (y : System T O' σ ε' C' R' α') : Prop where
  state : x.state = y.state
  lock : x.lock = y.lock
  threads : ∀ i, e.Mirror (x.threads i) (y.threads i)

/-- The histories of both sides: the same programs started and ended, apart from those
without a counterpart. -/
structure Tracks (ls : List (Action T O ε C R α)) (ls' : List (Action T O' ε' C' R' α')) : Prop where
  started : ∀ i op', .start i op' ∈ ls' → ∃ op, .start i op ∈ ls ∧ e.inner op = some op'
  ended : List.Forall₂ e.Echo ((ended ls).filter fun d => (e.inner d.1).isSome) (ended ls')

section Steps
variable {e} {x x' : System T O σ ε C R α} {y : System T O' σ ε' C' R' α'} {i : T}
  {a : Action T O ε C R α} {a' : Action T O' ε' C' R' α'} {ls : List (Action T O ε C R α)}
  {ls' : List (Action T O' ε' C' R' α')}

theorem Tracks.aside (h : e.Tracks ls ls') (ha : ∀ d, a.ended = some d → e.inner d.1 = none) :
    e.Tracks (a::ls) ls' := by
  refine ⟨fun i op' hmem => ?_,?_⟩
  · obtain ⟨op,hop,hin⟩ := h.started i op' hmem
    exact ⟨op,List.mem_cons_of_mem _ hop,hin⟩
  · cases hd : a.ended with
    | none =>
      have hsame : Shared.ended (a::ls) = Shared.ended ls := List.filterMap_cons_none hd
      rw [hsame]
      exact h.ended
    | some d =>
      have hcons : Shared.ended (a::ls) = d::Shared.ended ls := List.filterMap_cons_some hd
      rw [hcons,List.filter_cons_of_neg (by simp [ha d hd])]
      exact h.ended

theorem Tracks.both (h : e.Tracks ls ls')
    (hstart : ∀ i op', a' = .start i op' → ∃ op, a = .start i op ∧ e.inner op = some op')
    (ha : a.ended = none) (ha' : a'.ended = none) : e.Tracks (a::ls) (a'::ls') := by
  refine ⟨fun i op' hmem => ?_,?_⟩
  · rcases List.mem_cons.mp hmem with hmem | hmem
    · obtain ⟨op,rfl,hin⟩ := hstart i op' hmem.symm
      exact ⟨op,List.mem_cons_self,hin⟩
    · obtain ⟨op,hop,hin⟩ := h.started i op' hmem
      exact ⟨op,List.mem_cons_of_mem _ hop,hin⟩
  · have hsame : Shared.ended (a::ls) = Shared.ended ls := List.filterMap_cons_none ha
    have hsame' : Shared.ended (a'::ls') = Shared.ended ls' := List.filterMap_cons_none ha'
    rw [hsame,hsame']
    exact h.ended

variable [DecidableEq T]

theorem Mirrors.update (h : e.Mirrors x y) {o : Option (Thread O σ ε C R α)}
    {o' : Option (Thread O' σ ε' C' R' α')} (ho : e.Mirror o o') {s s' : σ} (hs : s = s')
    {lock lock' : Option T} (hlock : lock = lock') :
    e.Mirrors {x with state := s, lock := lock, threads := Function.update x.threads i o}
      {y with state := s', lock := lock', threads := Function.update y.threads i o'} := by
  refine ⟨hs,hlock,fun j => ?_⟩
  by_cases hji : j = i
  · subst hji
    simpa only [Function.update_self] using ho
  · simpa only [Function.update_of_ne hji] using h.threads j

theorem Mirrors.aside (h : e.Mirrors x y) {o : Option (Thread O σ ε C R α)} (hy : y.threads i = none)
    (ho : e.Mirror o none) :
    e.Mirrors {x with threads := Function.update x.threads i o} y := by
  have hsame : y.threads = Function.update y.threads i none := by
    rw [← hy,Function.update_eq_self]
  have hboth := h.update (i := i) ho h.state h.lock
  rwa [← hsame] at hboth

/-- One step of the first side is one of the second, or one that only the first side
takes note of. -/
theorem mirrors_step (h : e.Mirrors x y) (ht : e.Tracks ls ls') (hstep : Step w x a x') :
    ∃ y', e.Mirrors x' y' ∧ ((y' = y ∧ e.Tracks (a::ls) ls') ∨
      ∃ a', Step v y a' y' ∧ e.Tracks (a::ls) (a'::ls')) := by
  cases hstep with
  | start i op hi hlock =>
    have hy : y.threads i = none := by
      have hth := h.threads i
      rw [hi] at hth
      cases hcase : y.threads i with
      | none => rfl
      | some th' =>
        rw [hcase] at hth
        cases hth
    cases hin : e.inner op with
    | none =>
      obtain ⟨hstate,hfree⟩ := e.plain op hin
      have haside := h.aside (o := some ⟨op,w.code op,[],[]⟩) hy (.plain _ hin hstate)
      refine ⟨y,?_,.inl ⟨rfl,ht.aside (by simp [Action.ended])⟩⟩
      simpa [hfree] using haside
    | some op' =>
      have hlocked := e.locked op op' hin
      refine ⟨_,h.update (.inside ⟨op,w.code op,[],[]⟩ ⟨op',v.code op',[],[]⟩ hin (e.code op op' hin)
        rfl .nil) h.state (by rw [hlocked,h.lock]),.inr ⟨.start i op',.start i op' hy ?_,?_⟩⟩
      · intro hop
        rw [← h.lock]
        exact hlock (hlocked ▸ hop)
      · refine ht.both (fun j op₁ hj => ?_) rfl rfl
        cases hj
        exact ⟨op,rfl,hin⟩
  | read i th k hi hrest =>
    have hth := h.threads i
    rw [hi] at hth
    generalize hy : y.threads i = o at hth
    cases hth with
    | plain _ hin hstate =>
      rw [hrest] at hstate
      exact hstate.elim
    | inside _ th' hin hframe hreads htrace =>
      rw [hrest] at hframe
      obtain ⟨k₀,hk₀,hk⟩ := framed_get hframe.symm
      have hnext : e.Mirror (some {th with rest := k x.state, reads := x.state::th.reads})
          (some {th' with rest := k₀ y.state, reads := y.state::th'.reads}) :=
        .inside _ _ hin (h.state ▸ hk x.state) (by rw [h.state,hreads]) htrace
      exact ⟨_,h.update hnext h.state h.lock,
        .inr ⟨.read i,.read i th' k₀ hy hk₀,ht.both (by simp) rfl rfl⟩⟩
  | call i th c k r hi hrest hr =>
    have hth := h.threads i
    rw [hi] at hth
    generalize hy : y.threads i = o at hth
    cases hth with
    | plain _ hin hstate =>
      rw [hrest] at hstate
      exact ⟨y,h.aside hy (.plain _ hin (hstate r)),.inl ⟨rfl,ht.aside (by simp [Action.ended])⟩⟩
    | inside _ th' hin hframe hreads htrace =>
      rw [hrest] at hframe
      obtain ⟨c₀,k₀,hk₀,rfl,hk⟩ := framed_ask hframe.symm
      have hnext : e.Mirror (some {th with rest := k r, trace := th.trace ++ [(e.call c₀,r)]})
          (some {th' with rest := k₀ (e.view r), trace := th'.trace ++ [(c₀,e.view r)]}) :=
        .inside _ _ hin (hk r) hreads (List.rel_append htrace (.cons ⟨rfl,rfl⟩ .nil))
      exact ⟨_,h.update hnext h.state h.lock,
        .inr ⟨.call i c₀ (e.view r),.call i th' c₀ k₀ _ hy hk₀ (e.env _ _ hr),ht.both (by simp) rfl rfl⟩⟩
  | store i th seen s k hi hrest hseen =>
    have hth := h.threads i
    rw [hi] at hth
    generalize hy : y.threads i = o at hth
    cases hth with
    | plain _ hin hstate =>
      rw [hrest] at hstate
      exact hstate.elim
    | inside _ th' hin hframe hreads htrace =>
      rw [hrest] at hframe
      obtain ⟨k₀,hk₀,hk⟩ := framed_put hframe.symm
      have hnext : e.Mirror (some {th with rest := k}) (some {th' with rest := k₀}) :=
        .inside _ _ hin hk hreads htrace
      have hstored : w.store seen s x.state = v.store seen s y.state := by rw [e.store,h.state]
      exact ⟨_,h.update hnext hstored h.lock,
        .inr ⟨.store i,.store i th' seen s k₀ hy hk₀ (hreads ▸ hseen),ht.both (by simp) rfl rfl⟩⟩
  | finish i th value hi hend =>
    have hth := h.threads i
    rw [hi] at hth
    generalize hy : y.threads i = o at hth
    cases hth with
    | plain _ hin hstate =>
      have haside := h.aside hy .idle
      have hfree := (e.plain th.op hin).2
      refine ⟨y,by simpa [hfree] using haside,.inl ⟨rfl,ht.aside fun d hd => ?_⟩⟩
      cases hd
      exact hin
    | inside _ th' hin hframe hreads htrace =>
      rw [hframe] at hend
      obtain ⟨r,hr,rfl⟩ := framed_ending hend
      have hlocked := e.locked th.op th'.op hin
      refine ⟨_,h.update .idle h.state (by rw [hlocked,h.lock]),
        .inr ⟨.finish i th'.op th'.trace r,.finish i th' r hy hr,fun j op' hmem => ?_,?_⟩⟩
      · obtain ⟨op,hop,hin'⟩ := ht.started j op' (by simpa using hmem)
        exact ⟨op,List.mem_cons_of_mem _ hop,hin'⟩
      · have hcons : Shared.ended (.finish i th.op th.trace (.ok (e.wrap th.op r))::ls) =
            (th.op,th.trace,.ok (e.wrap th.op r))::Shared.ended ls := rfl
        rw [hcons,List.filter_cons_of_pos (by simp [hin])]
        exact .cons ⟨hin,htrace,rfl⟩ ht.ended

/-- Every interleaving of the first workload is one of the second, with the steps of
programs without a counterpart in between. -/
theorem runs_mirrored {s₀ : σ} (h : Runs (Step w) {state := s₀} ls x) :
    ∃ ls' y, Runs (Step v) {state := s₀} ls' y ∧ e.Mirrors x y ∧ e.Tracks ls ls' := by
  refine h.invariant (I := fun x ls => ∃ ls' y, Runs (Step v) {state := s₀} ls' y ∧ e.Mirrors x y ∧
    e.Tracks ls ls') ?_ ?_
  · exact ⟨[],_,.start _,⟨rfl,rfl,fun _ => .idle⟩,⟨by simp,.nil⟩⟩
  · rintro x ls a x' ⟨ls',y,hrun,hmirror,htracks⟩ hstep
    obtain ⟨y',hmirror',⟨rfl,htracks'⟩ | ⟨a',hstep',htracks'⟩⟩ := mirrors_step hmirror htracks hstep
    · exact ⟨ls',y',hrun,hmirror',htracks'⟩
    · exact ⟨a'::ls',y',.next hrun hstep',hmirror',htracks'⟩

end Steps

end Embedding

end Mirrors

end Shared
end VmplApps
