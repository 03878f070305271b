import VmplApps.FirewallPieces

/-! Rules and the lines before them. The word buffers and the address live outside the
loop, so a line that lacks a word, or whose address `inet_aton` refuses, is completed with
what an earlier line left there. -/
namespace VmplApps
namespace Firewall

open CText

section Own
variable (inetAton : List Char → Option (BitVec 32))

def ownRules : List (List Char) → Known → Option (List FwRule)
  | [], _ => some []
  | p::ps, q => do
    let (r,q') ← (kind p).own inetAton q
    let rules ← ownRules ps q'
    return r.toList ++ rules

/-- The parser accepts no file with the line, or each rule has its fields from the line. -/
def SelfContained (l : List Char) : Prop :=
  (∃ p ∈ cut l, kind p = .unknown ∨ (kind p).Overflows) ∨
    (ownRules inetAton (cut l) {}).isSome

def Accepts (m : Scratch) (text : List Char) : Prop :=
  ∃ rules, firewallParse inetAton m (some text) = .returned 0 rules

/-- The line contributes the same rules to any two files that the parser accepts, whatever
the other lines are and whatever the buffers hold at the start. -/
def OwnLine (l : List Char) : Prop :=
  ∀ text text' m m' k, Accepts inetAton m text → Accepts inetAton m' text' →
    (linesOf text)[k]? = some l → (linesOf text')[k]? = some l →
    contributed (fileTrace inetAton m text) k = contributed (fileTrace inetAton m' text') k

def scratchAfter : List Piece → Scratch → Scratch
  | [], m => m
  | p::ps, m =>
    match (kind p.text).result inetAton m with
    | .rule _ m' => scratchAfter ps m'
    | _ => scratchAfter ps m

end Own

def made (t : List (Piece × LineResult)) : List FwRule := t.filterMap fun e => e.2.rule?

section Trace
variable {inetAton : List Char → Option (BitVec 32)}

theorem trace_append {ps : List Piece} (h : ∀ p ∈ ps, p.Passes) (qs : List Piece) (m : Scratch) :
    trace inetAton (ps ++ qs) m =
      trace inetAton ps m ++ trace inetAton qs (scratchAfter inetAton ps m) := by
  induction ps generalizing m with
  | nil => rfl
  | cons p ps ih =>
    obtain ⟨hp,hps⟩ := List.forall_mem_cons.mp h
    have hgoes : (kind p.text).result inetAton m = .skipped ∨
        ∃ r m', (kind p.text).result inetAton m = .rule r m' := result_rule hp.2 hp.1 m
    rw [List.cons_append,trace,trace,scratchAfter,List.cons_append]
    rcases hgoes with hr | ⟨r,m',hr⟩
    · rw [hr]
      exact congrArg _ (ih hps m)
    · rw [hr]
      exact congrArg _ (ih hps m')

theorem outcome_trace_iff (inetAton : List Char → Option (BitVec 32)) (ps : List Piece)
    (m : Scratch) :
    (∃ rules, outcome (trace inetAton ps m) = .returned 0 rules) ↔ ∀ p ∈ ps, p.Passes := by
  induction ps generalizing m with
  | nil => exact iff_of_true ⟨[],rfl⟩ (by simp)
  | cons p ps ih =>
    rw [List.forall_mem_cons,trace]
    rcases result_cases inetAton (kind p.text) m with
      ⟨hk,hr⟩ | ⟨hk,hr⟩ | ⟨hk,hr⟩ | ⟨hk,-,hover,r,m',hr⟩
    · rw [hr]
      refine iff_of_false ?_ fun h => h.1.2 hk
      rintro ⟨rules,h⟩
      cases h
    · rw [hr]
      refine iff_of_false ?_ fun h => h.1.1 hk
      rintro ⟨rules,h⟩
      cases h
    · have hp : p.Passes := ⟨by simp [hk],by rw [hk]; exact id⟩
      rw [hr]
      exact (ih m).trans (and_iff_right hp).symm
    · rw [hr]
      exact (returned_cons 0 r _).trans ((ih m').trans (and_iff_right ⟨hk,hover⟩).symm)

theorem accepts_iff (m : Scratch) (text : List Char) :
    Accepts inetAton m text ↔ ∀ p ∈ piecesFrom 0 (linesOf text), p.Passes := by
  rw [← outcome_trace_iff inetAton (piecesFrom 0 (linesOf text)) m]
  simp only [Accepts,firewallParse_trace,fileTrace]
  cases outcome (trace inetAton (piecesFrom 0 (linesOf text)) m) <;> simp [ParseResult.onto]

theorem piecesFrom_append (i : ℕ) (ls ls' : List (List Char)) :
    piecesFrom i (ls ++ ls') = piecesFrom i ls ++ piecesFrom (i+ls.length) ls' := by
  induction ls generalizing i with
  | nil => rfl
  | cons l ls ih =>
    rw [List.cons_append,piecesFrom,piecesFrom,ih,List.append_assoc,List.length_cons,
      Nat.add_assoc,Nat.add_comm 1]

theorem contributed_other {ps : List Piece} {k : ℕ} (h : ∀ p ∈ ps, p.line ≠ k) (m : Scratch) :
    contributed (trace inetAton ps m) k = [] := by
  refine List.filterMap_eq_nil_iff.mpr fun e he => if_neg ?_
  exact h e.1 ((trace_sublist ps m).subset (List.mem_map_of_mem he))

theorem contributed_own (k : ℕ) (l : List Char) (m : Scratch) :
    contributed (trace inetAton (piecesOf k l) m) k = made (trace inetAton (piecesOf k l) m) := by
  refine List.filterMap_congr fun e he => if_pos ?_
  exact (mem_piecesOf ((trace_sublist _ m).subset (List.mem_map_of_mem he))).1

/-- A line of an accepted file contributes the rules of its pieces, from some buffers. -/
theorem contributed_line {m : Scratch} {text l : List Char} {k : ℕ}
    (h : Accepts inetAton m text) (hl : (linesOf text)[k]? = some l) :
    (∀ p ∈ piecesOf k l, p.Passes) ∧ ∃ m', contributed (fileTrace inetAton m text) k =
      made (trace inetAton (piecesOf k l) m') := by
  obtain ⟨hk,rfl⟩ := List.getElem?_eq_some_iff.mp hl
  have hsplit : linesOf text =
      (linesOf text).take k ++ (linesOf text)[k]::(linesOf text).drop (k+1) := by
    rw [← List.drop_eq_getElem_cons hk,List.take_append_drop]
  have hlen : ((linesOf text).take k).length = k := List.length_take_of_le (Nat.le_of_lt hk)
  -- the pieces before the line, its own, and those behind it
  generalize (linesOf text)[k] = l at hsplit
  rw [accepts_iff] at h
  rw [fileTrace]
  generalize (linesOf text).take k = before at hsplit hlen
  generalize (linesOf text).drop (k+1) = behind at hsplit
  rw [hsplit,piecesFrom_append,hlen,piecesFrom,Nat.zero_add] at h ⊢
  have hbefore := fun p hp => h p (List.mem_append_left _ hp)
  have hown := fun p hp => h p (List.mem_append_right _ (List.mem_append_left _ hp))
  refine ⟨hown,scratchAfter inetAton (piecesFrom 0 before) m,?_⟩
  rw [trace_append hbefore,trace_append hown,contributed,List.filterMap_append,
    List.filterMap_append]
  have hfirst : contributed (trace inetAton (piecesFrom 0 before) m) k = [] := by
    refine contributed_other (fun p hp => ?_) m
    obtain ⟨j,hj,hsome⟩ := mem_piecesFrom hp
    have hlt := (List.getElem?_eq_some_iff.mp hsome).1
    omega
  have hlast (m' : Scratch) :
      contributed (trace inetAton (piecesFrom (k+1) behind) m') k = [] := by
    refine contributed_other (fun p hp => ?_) m'
    obtain ⟨j,hj,-⟩ := mem_piecesFrom hp
    omega
  rw [contributed] at hfirst
  simp only [contributed] at hlast
  rw [hfirst,hlast,List.nil_append,List.append_nil]
  exact contributed_own k l _

end Trace

section Line
variable {inetAton : List Char → Option (BitVec 32)} {q : Known}

theorem made_cons (p : Piece) (x : LineResult) (t : List (Piece × LineResult)) :
    made ((p,x)::t) = (x.rule?).toList ++ made t := by
  rw [made,List.filterMap_cons]
  cases x <;> rfl

theorem made_step {p : Piece} {ps : List Piece} {q' : Known} {r : Option FwRule} (hp : p.Passes)
    (hown : (kind p.text).own inetAton q = some (r,q')) (m : Scratch) :
    made (trace inetAton (p::ps) (q.fill m)) =
      r.toList ++ made (trace inetAton ps (q'.fill m)) := by
  rw [trace,made_cons]
  rcases own_sound hp.2 hp.1 hown m with ⟨rfl,rfl,hr⟩ | ⟨r',rfl,hr⟩
  · rw [hr]
    rfl
  · rw [hr]
    rfl

theorem made_own {ps : List Piece} {rules : List FwRule} (hps : ∀ p ∈ ps, p.Passes)
    (h : ownRules inetAton (ps.map Piece.text) q = some rules) (m : Scratch) :
    made (trace inetAton ps (q.fill m)) = rules := by
  induction ps generalizing q rules with
  | nil =>
    cases h
    rfl
  | cons p ps ih =>
    obtain ⟨hp,hrest⟩ := List.forall_mem_cons.mp hps
    simp only [List.map_cons,ownRules,Option.bind_eq_bind,Option.bind_eq_some_iff] at h
    obtain ⟨⟨r,q'⟩,hown,rules',hrules,h⟩ := h
    cases h
    rw [made_step hp hown,ih hrest hrules]

theorem made_varies (hvaries : ∃ s t a b, inetAton s = some a ∧ inetAton t = some b ∧ a ≠ b)
    {ps : List Piece} (hps : ∀ p ∈ ps, p.Passes)
    (h : ownRules inetAton (ps.map Piece.text) q = none) :
    ∃ m₁ m₂, made (trace inetAton ps (q.fill m₁)) ≠ made (trace inetAton ps (q.fill m₂)) := by
  induction ps generalizing q with
  | nil => cases h
  | cons p ps ih =>
    obtain ⟨hp,hrest⟩ := List.forall_mem_cons.mp hps
    cases hown : (kind p.text).own inetAton q with
    | none =>
      obtain ⟨m₁,m₂,r₁,r₂,m₁',m₂',h₁,h₂,hne⟩ := own_none hvaries hp.2 hown
      refine ⟨m₁,m₂,fun heq => hne ?_⟩
      rw [trace,trace,made_cons,made_cons,h₁,h₂] at heq
      exact (List.cons.inj heq).1
    | some x =>
      obtain ⟨r,q'⟩ := x
      have hlater : ownRules inetAton (ps.map Piece.text) q' = none := by
        cases hrules : ownRules inetAton (ps.map Piece.text) q' with
        | none => rfl
        | some rules => simp [ownRules,hown,hrules] at h
      obtain ⟨m₁,m₂,hne⟩ := ih hrest hlater
      refine ⟨m₁,m₂,fun heq => hne ?_⟩
      rw [made_step hp hown,made_step hp hown] at heq
      exact List.append_cancel_left heq

theorem passes_of_not_stopped {l : List Char}
    (h : ¬∃ p ∈ cut l, kind p = .unknown ∨ (kind p).Overflows) (i : ℕ) :
    ∀ p ∈ piecesOf i l, p.Passes := by
  intro p hp
  have hcut : p.text ∈ cut l := map_text_piecesOf i l ▸ List.mem_map_of_mem hp
  exact ⟨fun hk => h ⟨p.text,hcut,.inl hk⟩,fun hk => h ⟨p.text,hcut,.inr hk⟩⟩

theorem SelfContained.own {l : List Char} (h : SelfContained inetAton l) : OwnLine inetAton l := by
  intro text text' m m' k hm hm' hl hl'
  obtain ⟨hpass,m₁,h₁⟩ := contributed_line hm hl
  obtain ⟨-,m₂,h₂⟩ := contributed_line hm' hl'
  rcases h with ⟨p,hp,hstop⟩ | hown
  · rw [← map_text_piecesOf k l] at hp
    obtain ⟨piece,hpiece,rfl⟩ := List.mem_map.mp hp
    rcases hstop with hstop | hstop
    · exact absurd hstop (hpass piece hpiece).1
    · exact absurd hstop (hpass piece hpiece).2
  · obtain ⟨rules,hrules⟩ := Option.isSome_iff_exists.mp hown
    rw [← map_text_piecesOf k l] at hrules
    rw [h₁,h₂]
    exact (made_own hpass hrules m₁).trans (made_own hpass hrules m₂).symm

end Line

/-- A line makes the same rules in every file that the parser accepts exactly when each of
its rules has its port, its mask and an address that `inet_aton` accepts on the line, or no
file with the line is accepted. -/
theorem own_line_iff {inetAton : List Char → Option (BitVec 32)}
    (hvaries : ∃ s t a b, inetAton s = some a ∧ inetAton t = some b ∧ a ≠ b)
    {l : List Char} (hnl : '\n' ∉ l) : OwnLine inetAton l ↔ SelfContained inetAton l := by
  refine ⟨fun h => ?_,SelfContained.own⟩
  by_contra hself
  -- a file of the one line shows the difference, with two contents of the buffers
  rw [SelfContained,not_or] at hself
  have hpass := passes_of_not_stopped hself.1 0
  have hlines : linesOf (l ++ ['\n']) = [l] := linesOf_line [] hnl
  have haccepts (m : Scratch) : Accepts inetAton m (l ++ ['\n']) := by
    rw [accepts_iff,hlines,piecesFrom,piecesFrom,List.append_nil]
    exact hpass
  have hnone : ownRules inetAton ((piecesOf 0 l).map Piece.text) {} = none := by
    rw [map_text_piecesOf]
    exact Option.not_isSome_iff_eq_none.mp hself.2
  obtain ⟨m₁,m₂,hne⟩ := made_varies hvaries hpass hnone
  have hline : (linesOf (l ++ ['\n']))[0]? = some l := by rw [hlines]; rfl
  have hsame := h _ _ m₁ m₂ 0 (haccepts m₁) (haccepts m₂) hline hline
  rw [fileTrace,fileTrace,hlines,piecesFrom,piecesFrom,List.append_nil,contributed_own,
    contributed_own] at hsame
  exact hne hsame

theorem own_line_iff_eighty : OwnLine dottedQuad "allow bind 80".toList :=
  (own_line_iff ⟨"0.0.0.0".toList,"1.1.1.1".toList,_,_,rfl,rfl,by decide⟩ (by decide)).mpr
    (.inr rfl)

/-- A bind rule without its port takes the port of the line above. -/
theorem port_inherited :
    firewallParse dottedQuad emptyScratch (some "allow bind 80\nallow bind\n".toList) =
      .returned 0 [{ type := .bindAllow, port := 80 },{ type := .bindAllow, port := 80 }] ∧
    firewallParse dottedQuad emptyScratch (some "allow bind 22\nallow bind\n".toList) =
      .returned 0 [{ type := .bindAllow, port := 22 },{ type := .bindAllow, port := 22 }] ∧
    ¬OwnLine dottedQuad "allow bind".toList := by
  have hfirst : firewallParse dottedQuad emptyScratch
      (some "allow bind 80\nallow bind\n".toList) = .returned 0
        [{ type := .bindAllow, port := 80 },{ type := .bindAllow, port := 80 }] := by
    decide +kernel
  have hsecond : firewallParse dottedQuad emptyScratch
      (some "allow bind 22\nallow bind\n".toList) = .returned 0
        [{ type := .bindAllow, port := 22 },{ type := .bindAllow, port := 22 }] := by
    decide +kernel
  refine ⟨hfirst,hsecond,fun h => ?_⟩
  have hsame := h _ _ _ _ 1 ⟨_,hfirst⟩ ⟨_,hsecond⟩ (by decide +kernel) (by decide +kernel)
  exact absurd hsame (by decide +kernel)

end Firewall
end VmplApps
