import Mathlib.Tactic

/-! Sequential programs that call an environment. A program is a tree: each call
has one branch for every reply, state is read and written at explicit nodes, and
a run ends with a value, with an error value, or by stopping the process. `Exec`
is the relation between a program and the traces of its calls; `wp` is its
weakest precondition, with one rule for each node. -/
namespace VmplApps

inductive Prog (σ ε C R α : Type)
  | ret (a : α)
  | fail (e : ε)
  | halt
  | get (k : σ → Prog σ ε C R α)
  | put (s : σ) (k : Prog σ ε C R α)
  | ask (c : C) (k : R → Prog σ ε C R α)

/-- How a run ends; an error keeps the state reached so far. -/
inductive Outcome (σ ε α : Type)
  | ok (a : α) (s : σ)
  | err (e : ε) (s : σ)
  | halted
  deriving DecidableEq, Repr

def Outcome.final {σ ε α : Type} : Outcome σ ε α → Option σ
  | .ok _ s | .err _ s => some s
  | .halted => none

namespace Prog

variable {σ ε C R α β : Type}

protected def bind : Prog σ ε C R α → (α → Prog σ ε C R β) → Prog σ ε C R β
  | .ret a, f => f a
  | .fail e, _ => .fail e
  | .halt, _ => .halt
  | .get k, f => .get fun s => (k s).bind f
  | .put s k, f => .put s (k.bind f)
  | .ask c k, f => .ask c fun r => (k r).bind f

instance : Monad (Prog σ ε C R) where
  pure := .ret
  bind := Prog.bind

def call (c : C) : Prog σ ε C R R := .ask c .ret

def state : Prog σ ε C R σ := .get .ret

def modify (f : σ → σ) : Prog σ ε C R Unit := .get fun s => .put (f s) (.ret ())

/-- A complete run: the calls made with their replies, in order, and the end. The
environment answers a call only as `env` allows. -/
inductive Exec (env : C → R → Prop) :
    Prog σ ε C R α → σ → List (C × R) → Outcome σ ε α → Prop
  | ret (a s) : Exec env (.ret a) s [] (.ok a s)
  | fail (e s) : Exec env (.fail e) s [] (.err e s)
  | halt (s) : Exec env .halt s [] .halted
  | get {k s t o} : Exec env (k s) s t o → Exec env (.get k) s t o
  | put {k s s' t o} : Exec env k s' t o → Exec env (.put s' k) s t o
  | ask {c k s r t o} : env c r → Exec env (k r) s t o → Exec env (.ask c k) s ((c,r)::t) o

theorem Exec.allowed {env : C → R → Prop} {p : Prog σ ε C R α} {s : σ} {t : List (C × R)}
    {o : Outcome σ ε α} (h : Exec env p s t o) : ∀ e ∈ t, env e.1 e.2 := by
  induction h with
  | ret | fail | halt => simp
  | get _ ih | put _ ih => exact ih
  | ask henv _ ih => exact List.forall_mem_cons.mpr ⟨henv,ih⟩

theorem Exec.mono {env env' : C → R → Prop} {p : Prog σ ε C R α} {s : σ} {t : List (C × R)}
    {o : Outcome σ ε α} (h : Exec env p s t o) (he : ∀ c r, env c r → env' c r) :
    Exec env' p s t o := by
  induction h with
  | ret a s => exact .ret a s
  | fail e s => exact .fail e s
  | halt s => exact .halt s
  | get _ ih => exact .get ih
  | put _ ih => exact .put ih
  | ask henv _ ih => exact .ask (he _ _ henv) ih

/-- Every run allowed by the environment ends in `Q`. -/
def wp (env : C → R → Prop) :
    Prog σ ε C R α → σ → (List (C × R) → Outcome σ ε α → Prop) → Prop
  | .ret a, s, Q => Q [] (.ok a s)
  | .fail e, s, Q => Q [] (.err e s)
  | .halt, _, Q => Q [] .halted
  | .get k, s, Q => wp env (k s) s Q
  | .put s' k, _, Q => wp env k s' Q
  | .ask c k, s, Q => ∀ r, env c r → wp env (k r) s fun t o => Q ((c,r)::t) o

theorem wp_iff (env : C → R → Prop) (p : Prog σ ε C R α) (s : σ)
    (Q : List (C × R) → Outcome σ ε α → Prop) :
    wp env p s Q ↔ ∀ t o, Exec env p s t o → Q t o := by
  induction p generalizing s Q with
  | ret a =>
    refine ⟨fun h t o he => ?_,fun h => h _ _ (.ret a s)⟩
    cases he
    exact h
  | fail e =>
    refine ⟨fun h t o he => ?_,fun h => h _ _ (.fail e s)⟩
    cases he
    exact h
  | halt =>
    refine ⟨fun h t o he => ?_,fun h => h _ _ (.halt s)⟩
    cases he
    exact h
  | get k ih =>
    simp only [wp,ih]
    refine ⟨fun h t o he => ?_,fun h t o he => h t o (.get he)⟩
    cases he with
    | get he => exact h t o he
  | put s' k ih =>
    simp only [wp,ih]
    refine ⟨fun h t o he => ?_,fun h t o he => h t o (.put he)⟩
    cases he with
    | put he => exact h t o he
  | ask c k ih =>
    simp only [wp,ih]
    refine ⟨fun h t o he => ?_,fun h r hr t o he => h _ o (.ask hr he)⟩
    cases he with
    | ask hr he => exact h _ hr _ o he

theorem wp_mono {env : C → R → Prop} {p : Prog σ ε C R α} {s : σ}
    {Q Q' : List (C × R) → Outcome σ ε α → Prop} (h : wp env p s Q)
    (hQ : ∀ t o, Q t o → Q' t o) : wp env p s Q' :=
  (wp_iff env p s Q').mpr fun t o he => hQ t o ((wp_iff env p s Q).mp h t o he)

def thenPost (env : C → R → Prop) (f : α → Prog σ ε C R β)
    (Q : List (C × R) → Outcome σ ε β → Prop) (t : List (C × R)) : Outcome σ ε α → Prop
  | .ok a s => wp env (f a) s fun t' o => Q (t ++ t') o
  | .err e s => Q t (.err e s)
  | .halted => Q t .halted

theorem wp_bind (env : C → R → Prop) (p : Prog σ ε C R α) (f : α → Prog σ ε C R β) (s : σ)
    (Q : List (C × R) → Outcome σ ε β → Prop) :
    wp env (p >>= f) s Q ↔ wp env p s (thenPost env f Q) := by
  change wp env (p.bind f) s Q ↔ _
  induction p generalizing s Q with
  | ret a => rfl
  | fail e => rfl
  | halt => rfl
  | get k ih => exact ih s s Q
  | put s' k ih => exact ih s' Q
  | ask c k ih =>
    simp only [Prog.bind,wp,ih]
    refine forall_congr' fun r => imp_congr_right fun _ => ?_
    have hpost : thenPost env f (fun t o => Q ((c,r)::t) o) =
        fun t o => thenPost env f Q ((c,r)::t) o := by
      funext t o
      cases o <;> rfl
    rw [hpost]

theorem wp_seq {env : C → R → Prop} {p : Prog σ ε C R α} {f : α → Prog σ ε C R β} {s : σ}
    {P : List (C × R) → Outcome σ ε α → Prop} {Q : List (C × R) → Outcome σ ε β → Prop}
    (hp : wp env p s P)
    (hok : ∀ t a s', P t (.ok a s') → wp env (f a) s' fun t' o => Q (t ++ t') o)
    (herr : ∀ t e s', P t (.err e s') → Q t (.err e s'))
    (hhalt : ∀ t, P t .halted → Q t .halted) : wp env (p >>= f) s Q := by
  rw [wp_bind]
  refine wp_mono hp fun t o h => ?_
  cases o with
  | ok a s' => exact hok t a s' h
  | err e s' => exact herr t e s' h
  | halted => exact hhalt t h

/-- Sequencing after a first half that always returns. -/
theorem wp_then {env : C → R → Prop} {p : Prog σ ε C R α} {f : α → Prog σ ε C R β} {s : σ}
    {P : List (C × R) → α → σ → Prop} {Q : List (C × R) → Outcome σ ε β → Prop}
    (hp : wp env p s fun t o => ∃ a s', o = .ok a s' ∧ P t a s')
    (hf : ∀ t a s', P t a s' → wp env (f a) s' fun t' o => Q (t ++ t') o) :
    wp env (p >>= f) s Q := by
  rw [wp_bind]
  refine wp_mono hp ?_
  rintro t o ⟨a,s',rfl,h⟩
  exact hf t a s' h

section Rules
variable (env : C → R → Prop) (s : σ)

@[simp] theorem wp_pure (a : α) (Q : List (C × R) → Outcome σ ε α → Prop) :
    wp env (pure a : Prog σ ε C R α) s Q ↔ Q [] (.ok a s) := Iff.rfl
@[simp] theorem wp_fail (e : ε) (Q : List (C × R) → Outcome σ ε α → Prop) :
    wp env (.fail e) s Q ↔ Q [] (.err e s) := Iff.rfl
@[simp] theorem wp_halt (Q : List (C × R) → Outcome σ ε α → Prop) :
    wp env .halt s Q ↔ Q [] .halted := Iff.rfl
@[simp] theorem wp_call (c : C) (Q : List (C × R) → Outcome σ ε R → Prop) :
    wp env (call c) s Q ↔ ∀ r, env c r → Q [(c,r)] (.ok r s) := Iff.rfl
@[simp] theorem wp_state (Q : List (C × R) → Outcome σ ε σ → Prop) :
    wp env state s Q ↔ Q [] (.ok s s) := Iff.rfl
@[simp] theorem wp_modify (f : σ → σ) (Q : List (C × R) → Outcome σ ε Unit → Prop) :
    wp env (modify f) s Q ↔ Q [] (.ok () (f s)) := Iff.rfl

end Rules

/-- Run a program on a prepared list of replies; the replies must be used up. -/
def runWith : Prog σ ε C R α → σ → List R → Option (List (C × R) × Outcome σ ε α)
  | .ret a, s, [] => some ([],.ok a s)
  | .fail e, s, [] => some ([],.err e s)
  | .halt, _, [] => some ([],.halted)
  | .get k, s, rs => (k s).runWith s rs
  | .put s' k, _, rs => k.runWith s' rs
  | .ask c k, s, r::rs => ((k r).runWith s rs).map fun x => ((c,r)::x.1,x.2)
  | _, _, _ => none

theorem exec_of_runWith {env : C → R → Prop} {p : Prog σ ε C R α} {s : σ} (rs : List R)
    {t : List (C × R)} {o : Outcome σ ε α} (h : p.runWith s rs = some (t,o))
    (henv : ∀ e ∈ t, env e.1 e.2) : Exec env p s t o := by
  induction p generalizing s rs t with
  | ret a =>
    cases rs with
    | nil =>
      simp only [runWith,Option.some.injEq,Prod.mk.injEq] at h
      obtain ⟨rfl,rfl⟩ := h
      exact .ret a s
    | cons r rs => simp [runWith] at h
  | fail e =>
    cases rs with
    | nil =>
      simp only [runWith,Option.some.injEq,Prod.mk.injEq] at h
      obtain ⟨rfl,rfl⟩ := h
      exact .fail e s
    | cons r rs => simp [runWith] at h
  | halt =>
    cases rs with
    | nil =>
      simp only [runWith,Option.some.injEq,Prod.mk.injEq] at h
      obtain ⟨rfl,rfl⟩ := h
      exact .halt s
    | cons r rs => simp [runWith] at h
  | get k ih => exact .get (ih s rs (by simpa [runWith] using h) henv)
  | put s' k ih => exact .put (ih rs (by simpa [runWith] using h) henv)
  | ask c k ih =>
    cases rs with
    | nil => simp [runWith] at h
    | cons r rs =>
      simp only [runWith,Option.map_eq_some_iff] at h
      obtain ⟨⟨t',o'⟩,h,he⟩ := h
      simp only [Prod.mk.injEq] at he
      obtain ⟨rfl,rfl⟩ := he
      exact .ask (henv _ List.mem_cons_self) (ih r rs h fun e he => henv e (List.mem_cons_of_mem _ he))

theorem exists_of_runWith {env : C → R → Prop} {p : Prog σ ε C R α} {s : σ} (rs : List R)
    {test : List (C × R) × Outcome σ ε α → Bool}
    (htest : ∀ r, test r = true → ∀ e ∈ r.1, env e.1 e.2)
    (h : (p.runWith s rs).any test = true) : ∃ t o, Exec env p s t o ∧ test (t,o) = true := by
  cases hr : p.runWith s rs with
  | none => simp [hr] at h
  | some r =>
    have hok : test r = true := by simpa [hr] using h
    exact ⟨r.1,r.2,exec_of_runWith rs hr (htest r hok),hok⟩

/-- The run in which every call gets the reply that a function gives it. -/
def answer (reply : C → R) : Prog σ ε C R α → σ → List (C × R) × Outcome σ ε α
  | .ret a, s => ([],.ok a s)
  | .fail e, s => ([],.err e s)
  | .halt, _ => ([],.halted)
  | .get k, s => answer reply (k s) s
  | .put s' k, _ => answer reply k s'
  | .ask c k, s => ((c,reply c)::(answer reply (k (reply c)) s).1,(answer reply (k (reply c)) s).2)

theorem exec_answer {env : C → R → Prop} {reply : C → R} (henv : ∀ c, env c (reply c))
    (p : Prog σ ε C R α) (s : σ) : Exec env p s (answer reply p s).1 (answer reply p s).2 := by
  induction p generalizing s with
  | ret a => exact .ret a s
  | fail e => exact .fail e s
  | halt => exact .halt s
  | get k ih => exact .get (ih s s)
  | put s' k ih => exact .put (ih s')
  | ask c k ih => exact .ask (henv c) (ih (reply c) s)

theorem answer_bind {reply : C → R} {p : Prog σ ε C R α} {s s' : σ} {t : List (C × R)} {a : α}
    (h : answer reply p s = (t,.ok a s')) (f : α → Prog σ ε C R β) :
    answer reply (p >>= f) s = (t ++ (answer reply (f a) s').1,(answer reply (f a) s').2) := by
  change answer reply (p.bind f) s = _
  induction p generalizing s t with
  | ret b =>
    cases h
    rfl
  | fail e => cases h
  | halt => cases h
  | get k ih => exact ih s h
  | put s' k ih => exact ih h
  | ask c k ih =>
    simp only [answer,Prod.mk.injEq] at h
    obtain ⟨rfl,ho⟩ := h
    simp only [Prog.bind,answer,ih (reply c) (Prod.ext rfl ho),List.cons_append]

theorem mem_answer_bind {reply : C → R} {p : Prog σ ε C R α} {s : σ} {x : C × R}
    (h : x ∈ (answer reply p s).1) (f : α → Prog σ ε C R β) :
    x ∈ (answer reply (p >>= f) s).1 := by
  change x ∈ (answer reply (p.bind f) s).1
  induction p generalizing s with
  | ret a => cases h
  | fail e => cases h
  | halt => cases h
  | get k ih => exact ih s h
  | put s' k ih => exact ih h
  | ask c k ih =>
    rcases List.mem_cons.mp h with rfl | h
    · exact List.mem_cons_self
    · exact List.mem_cons_of_mem _ (ih (reply c) h)

end Prog

/-- Runs of a labelled transition system; the list holds the most recent label
first. -/
inductive Runs {S L : Type} (step : S → L → S → Prop) : S → List L → S → Prop
  | start (s) : Runs step s [] s
  | next {s s' s'' ls l} : Runs step s ls s' → step s' l s'' → Runs step s (l::ls) s''

/-- A property of states and histories that holds at the start and that every
step preserves holds after every run. -/
theorem Runs.invariant {S L : Type} {step : S → L → S → Prop} {I : S → List L → Prop}
    {s s' : S} {ls : List L} (h : Runs step s ls s') (h0 : I s [])
    (hs : ∀ s ls l s', I s ls → step s l s' → I s' (l::ls)) : I s' ls := by
  induction h with
  | start => exact h0
  | next _ hstep ih => exact hs _ _ _ _ ih hstep

theorem Runs.mono {S L : Type} {step step' : S → L → S → Prop} {s s' : S} {ls : List L}
    (h : Runs step s ls s') (hs : ∀ a l b, step a l b → step' a l b) : Runs step' s ls s' := by
  induction h with
  | start => exact .start s
  | next _ hstep ih => exact .next ih (hs _ _ _ hstep)

theorem Runs.trans {S L : Type} {step : S → L → S → Prop} {s s' s'' : S} {ls ls' : List L}
    (h : Runs step s ls s') (h' : Runs step s' ls' s'') : Runs step s (ls' ++ ls) s'' := by
  induction h' with
  | start => exact h
  | next _ hstep ih => exact .next ih hstep

theorem Runs.split {S L : Type} {step : S → L → S → Prop} {s s'' : S} {ls ls' : List L}
    (h : Runs step s (ls' ++ ls) s'') : ∃ s', Runs step s ls s' ∧ Runs step s' ls' s'' := by
  induction ls' generalizing s'' with
  | nil => exact ⟨s'',h,.start s''⟩
  | cons l ls' ih =>
    cases h with
    | next hrun hstep =>
      obtain ⟨s',hold,hnew⟩ := ih hrun
      exact ⟨s',hold,.next hnew hstep⟩

theorem Runs.after {S L : Type} {step : S → L → S → Prop} {s s' s'' : S} {ls : List L} {l : L}
    (h : Runs step s' ls s'') (hstep : step s l s') : Runs step s (ls ++ [l]) s'' :=
  (Runs.start s |>.next hstep).trans h

/-- When all runs are bounded, one of them ends where no step is left. -/
theorem Runs.exists_last {S L : Type} {step : S → L → S → Prop} {s : S} {n : ℕ}
    (h : ∀ ls s', Runs step s ls s' → ls.length ≤ n) :
    ∃ ls s', Runs step s ls s' ∧ ∀ l s'', ¬step s' l s'' := by
  by_contra hnone
  have hlonger (k : ℕ) : ∃ ls s', Runs step s ls s' ∧ ls.length = k := by
    induction k with
    | zero => exact ⟨[],s,.start s,rfl⟩
    | succ k ih =>
      obtain ⟨ls,s',hruns,hlen⟩ := ih
      simp only [not_exists,not_and,not_forall,not_not] at hnone
      obtain ⟨l,s'',hstep⟩ := hnone ls s' hruns
      exact ⟨l::ls,s'',.next hruns hstep,congrArg Nat.succ hlen⟩
  obtain ⟨ls,s',hruns,hlen⟩ := hlonger (n+1)
  have := h ls s' hruns
  omega

/-- Follow a list of labels, most recent first, through a step function, as long as
every step meets a condition. -/
def follow {S L ε : Type} (step : S → L → Except ε S) (cond : S → L → Bool) (s : S) :
    List L → Option S
  | [] => some s
  | l::ls =>
    match follow step cond s ls with
    | none => none
    | some s' => if cond s' l then (step s' l).toOption else none

theorem runs_of_follow {S L ε : Type} {step : S → L → Except ε S} {cond : S → L → Bool} {s s' : S}
    {ls : List L} (h : follow step cond s ls = some s') :
    Runs (fun a l b => cond a l = true ∧ step a l = .ok b) s ls s' := by
  induction ls generalizing s' with
  | nil =>
    obtain rfl := Option.some.inj h
    exact .start s
  | cons l ls ih =>
    simp only [follow] at h
    split at h
    · cases h
    · rename_i s₁ hs₁
      split_ifs at h with hc
      refine .next (ih hs₁) ⟨hc,?_⟩
      cases hstep : step s₁ l with
      | error e =>
        rw [hstep] at h
        cases h
      | ok s₂ =>
        rw [hstep] at h
        rw [Option.some.inj h]

theorem exists_of_follow {S L ε : Type} {step : S → L → Except ε S} {cond : S → L → Bool} {s : S}
    {ls : List L} {p : S → Bool} (h : (follow step cond s ls).any p = true) :
    ∃ s', Runs (fun a l b => cond a l = true ∧ step a l = .ok b) s ls s' ∧ p s' = true := by
  cases hf : follow step cond s ls with
  | none => simp [hf] at h
  | some s' => exact ⟨s',runs_of_follow hf,by simpa [hf] using h⟩

end VmplApps
