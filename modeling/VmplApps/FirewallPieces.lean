import VmplApps.FirewallReject

/-! Lines of any length. `fgets` hands a line over in pieces of 99 characters, and the
loop takes each piece for a line. The parse is followed here piece by piece, with the line
that each piece was cut from. -/
namespace VmplApps
namespace Firewall

open CText

/-- A piece of a line of the file: the number and the text of the line, and which of the
pieces it is. -/
structure Piece where
  line : ℕ
  whole : List Char
  index : ℕ

def Piece.text (p : Piece) : List Char := (p.whole.drop (99*p.index)).take 99

def piecesOf (i : ℕ) (l : List Char) : List Piece :=
  (List.range (l.length/99+1)).map fun j => ⟨i,l,j⟩

def piecesFrom : ℕ → List (List Char) → List Piece
  | _, [] => []
  | i, l::ls => piecesOf i l ++ piecesFrom (i+1) ls

def LineResult.rule? : LineResult → Option FwRule
  | .rule r _ => some r
  | _ => none

section Trace
variable (inetAton : List Char → Option (BitVec 32))

/-- The pieces that the loop comes to, and what it does with each. -/
def trace : List Piece → Scratch → List (Piece × LineResult)
  | [], _ => []
  | p::ps, m => (p,(kind p.text).result inetAton m)::
    match (kind p.text).result inetAton m with
    | .skipped => trace ps m
    | .rule _ m' => trace ps m'
    | .refused | .overflow => []

def fileTrace (m : Scratch) (text : List Char) : List (Piece × LineResult) :=
  trace inetAton (piecesFrom 0 (linesOf text)) m

end Trace

/-- What the text of one line has put in the buffers so far. -/
structure Known where
  port : Option (List Char) := none
  ip : Option (List Char) := none
  mask : Option (List Char) := none
  inp : Option (BitVec 32) := none

def Known.fill (q : Known) (m : Scratch) : Scratch :=
  ⟨q.port.getD m.port,q.ip.getD m.ip,q.mask.getD m.mask,q.inp.getD m.inp⟩

/-- The rule of a piece, read from its line alone; `none` if the line does not give the port,
the address and the mask of a rule, or gives an address that `inet_aton` refuses. A mask
that it refuses is replaced by the address. -/
def Kind.own (inetAton : List Char → Option (BitVec 32)) (q : Known) :
    Kind → Option (Option FwRule × Known)
  | .bind s => do
    let port ← (scanWords 1 s)[0]?.or q.port
    return (some { type := .bindAllow, port := portOf port },{ q with port := some port })
  | .connect action s => do
    let port ← (scanWords 3 s)[0]?.or q.port
    let ip ← (scanWords 3 s)[1]?.or q.ip
    let mask ← (scanWords 3 s)[2]?.or q.mask
    let a ← (inetAton ip).or q.inp
    let b := (inetAton mask).getD a
    return (some { type := action.type, port := portOf port, ip := a, mask := b },
      ⟨some port,some ip,some mask,some b⟩)
  | _ => some (none,q)

section Fields
variable {inetAton : List Char → Option (BitVec 32)} {k : Kind} {q q' : Known}

theorem getD_or {α : Type} (x y : Option α) (d : α) : (x.or y).getD d = x.getD (y.getD d) := by
  cases x <;> rfl

theorem result_bind {s : List Char} (h : ¬(Kind.bind s).Overflows) (q : Known) (m : Scratch) :
    (Kind.bind s).result inetAton (q.fill m) =
      .rule { type := .bindAllow, port := portOf (((scanWords 1 s)[0]?.or q.port).getD m.port) }
        ({ q with port := (scanWords 1 s)[0]?.or q.port }.fill m) := by
  rw [Kind.result,parseBind_fits h,Known.fill,Known.fill,getD_or]

theorem result_connect (inetAton : List Char → Option (BitVec 32)) {action : ConnectAction}
    {s : List Char} (h : ¬(Kind.connect action s).Overflows) (q : Known) (m : Scratch) :
    let port := ((scanWords 3 s)[0]?.or q.port).getD m.port
    let ip := ((scanWords 3 s)[1]?.or q.ip).getD m.ip
    let mask := ((scanWords 3 s)[2]?.or q.mask).getD m.mask
    let a := (inetAton ip).getD (q.inp.getD m.inp)
    let b := (inetAton mask).getD a
    (Kind.connect action s).result inetAton (q.fill m) =
      .rule { type := action.type, port := portOf port, ip := a, mask := b } ⟨port,ip,mask,b⟩ := by
  have hcall (text : List Char) (inp : BitVec 32) :
      (callInetAton inetAton text inp).2 = (inetAton text).getD inp := by
    rw [callInetAton]
    cases inetAton text <;> rfl
  rw [Kind.result,parseConnect_of_scan (scanConnect_fits h _)]
  simp only [hcall,getD_or,Known.fill]

/-- The rule of a piece that is given on its line does not depend on the buffers. -/
theorem own_sound {r : Option FwRule} (hover : ¬k.Overflows) (hunknown : k ≠ .unknown)
    (h : k.own inetAton q = some (r,q')) (m : Scratch) :
    (r = none ∧ q' = q ∧ k.result inetAton (q.fill m) = .skipped) ∨
      ∃ r', r = some r' ∧ k.result inetAton (q.fill m) = .rule r' (q'.fill m) := by
  cases k with
  | skipped =>
    cases h
    exact .inl ⟨rfl,rfl,rfl⟩
  | unknown => exact absurd rfl hunknown
  | bind s =>
    simp only [Kind.own,Option.bind_eq_bind,Option.bind_eq_some_iff] at h
    obtain ⟨port,hport,h⟩ := h
    cases h
    refine .inr ⟨_,rfl,?_⟩
    rw [result_bind hover,hport]
    rfl
  | connect action s =>
    simp only [Kind.own,Option.bind_eq_bind,Option.bind_eq_some_iff] at h
    obtain ⟨port,hport,ip,hip,mask,hmask,a,ha,h⟩ := h
    cases h
    refine .inr ⟨_,rfl,?_⟩
    have haddr : (inetAton ip).getD (q.inp.getD m.inp) = a := by rw [← getD_or,ha]; rfl
    have hresult := result_connect inetAton hover q m
    simp only [hport,hip,hmask,Option.getD_some,haddr] at hresult
    exact hresult

/-- A rule with all its fields on the piece is the same from whatever buffers. -/
theorem own_rule (hover : ¬k.Overflows) (hunknown : k ≠ .unknown)
    (hown : (k.own inetAton {}).isSome) {m m' : Scratch} {r : FwRule}
    (h : k.result inetAton m = .rule r m') (m₁ : Scratch) :
    (k.result inetAton m₁).rule? = some r := by
  obtain ⟨x,hown⟩ := Option.isSome_iff_exists.mp hown
  have hsame := own_sound hover hunknown hown
  rcases hsame m with ⟨-,-,hno⟩ | ⟨r₀,hx,hrule⟩
  · exact absurd (h.symm.trans hno) nofun
  · cases h.symm.trans hrule
    rcases hsame m₁ with ⟨hx',-⟩ | ⟨r₁,hx',hrule₁⟩
    · exact absurd (hx.symm.trans hx') nofun
    · cases hx.symm.trans hx'
      exact congrArg LineResult.rule? hrule₁

theorem own_bind_none {s : List Char} (h : (Kind.bind s).own inetAton q = none) :
    (scanWords 1 s)[0]?.or q.port = none := by
  cases hport : (scanWords 1 s)[0]?.or q.port with
  | none => rfl
  | some port => simp [Kind.own,hport] at h

theorem own_connect_none {action : ConnectAction} {s : List Char}
    (h : (Kind.connect action s).own inetAton q = none) :
    (scanWords 3 s)[0]?.or q.port = none ∨ (scanWords 3 s)[1]?.or q.ip = none ∨
      (scanWords 3 s)[2]?.or q.mask = none ∨
      ∃ ip, (scanWords 3 s)[1]?.or q.ip = some ip ∧ inetAton ip = none ∧ q.inp = none := by
  cases hport : (scanWords 3 s)[0]?.or q.port with
  | none => exact .inl rfl
  | some port =>
    cases hip : (scanWords 3 s)[1]?.or q.ip with
    | none => exact .inr (.inl rfl)
    | some ip =>
      cases hmask : (scanWords 3 s)[2]?.or q.mask with
      | none => exact .inr (.inr (.inl rfl))
      | some mask =>
        refine .inr (.inr (.inr ⟨ip,rfl,Option.or_eq_none_iff.mp ?_⟩))
        cases haddr : (inetAton ip).or q.inp with
        | none => rfl
        | some a => simp [Kind.own,hport,hip,hmask,haddr] at h

/-- A rule that is not given on its line takes different values from different buffers. -/
theorem own_none (hvaries : ∃ s t a b, inetAton s = some a ∧ inetAton t = some b ∧ a ≠ b)
    (hover : ¬k.Overflows) (h : k.own inetAton q = none) :
    ∃ m₁ m₂ r₁ r₂ m₁' m₂', k.result inetAton (q.fill m₁) = .rule r₁ m₁' ∧
      k.result inetAton (q.fill m₂) = .rule r₂ m₂' ∧ r₁ ≠ r₂ := by
  have hports : portOf "*".toList ≠ portOf "1".toList := by decide
  cases k with
  | skipped => cases h
  | unknown => cases h
  | bind s =>
    refine ⟨⟨"*".toList,[],[],0⟩,⟨"1".toList,[],[],0⟩,_,_,_,_,result_bind hover q _,
      result_bind hover q _,fun heq => hports ?_⟩
    rw [own_bind_none h] at heq
    exact congrArg FwRule.port heq
  | connect action s =>
    obtain ⟨u,v,a,b,ha,hb,hab⟩ := hvaries
    have hrule := result_connect inetAton hover q
    rcases own_connect_none h with hport | hip | hmask | ⟨ip,hip,hrefused,hinp⟩
    · refine ⟨⟨"*".toList,[],[],0⟩,⟨"1".toList,[],[],0⟩,_,_,_,_,hrule _,hrule _,fun heq => hports ?_⟩
      simp only [hport] at heq
      exact congrArg FwRule.port heq
    · refine ⟨⟨[],u,[],0⟩,⟨[],v,[],0⟩,_,_,_,_,hrule _,hrule _,fun heq => hab ?_⟩
      simp only [hip] at heq
      simpa [ha,hb] using congrArg FwRule.ip heq
    · refine ⟨⟨[],[],u,0⟩,⟨[],[],v,0⟩,_,_,_,_,hrule _,hrule _,fun heq => hab ?_⟩
      simp only [hmask] at heq
      simpa [ha,hb] using congrArg FwRule.mask heq
    · refine ⟨⟨[],[],[],0⟩,⟨[],[],[],1⟩,_,_,_,_,hrule _,hrule _,fun heq => ?_⟩
      simp only [hip] at heq
      simpa [hrefused,hinp] using congrArg FwRule.ip heq

end Fields

def outcome : List (Piece × LineResult) → ParseResult
  | [] => .returned 0 []
  | (_,.skipped)::t => outcome t
  | (_,.refused)::_ => .returned (-1) []
  | (_,.overflow)::_ => .overflow
  | (_,.rule r _)::t => (outcome t).cons r

/-- The rules that the loop makes while it reads a line. -/
def contributed (t : List (Piece × LineResult)) (i : ℕ) : List FwRule :=
  t.filterMap fun e => if e.1.line = i then e.2.rule? else none

/-- A line is one unit: a comment has no effect, and any other line makes at most one rule,
the one that its first 99 characters give whatever the lines before it left in the buffers. -/
structure OneUnit (inetAton : List Char → Option (BitVec 32)) (m : Scratch)
    (text : List Char) : Prop where
  comment : ∀ i l, (linesOf text)[i]? = some l → STR_COMMENT.isPrefixOf l = true →
    contributed (fileTrace inetAton m text) i = [] ∧
      ∀ e ∈ fileTrace inetAton m text, e.1.line = i → e.2 ≠ .refused ∧ e.2 ≠ .overflow
  other : ∀ i l, (linesOf text)[i]? = some l → ¬STR_COMMENT.isPrefixOf l = true →
    (contributed (fileTrace inetAton m text) i).length ≤ 1 ∧
      ∀ e ∈ fileTrace inetAton m text, e.1.line = i → e.2 ≠ .overflow ∧
        ∀ r, e.2.rule? = some r → e.1.index = 0 ∧
          ∀ m', ((kind (l.take 99)).result inetAton m').rule? = some r

def Piece.Passes (p : Piece) : Prop := kind p.text ≠ .unknown ∧ ¬(kind p.text).Overflows

/-- No word of the piece overflows a buffer, and a rule on it has all its fields there.
Behind the first piece of a comment there are only pieces that the loop skips, and behind
that of another line there may also be one without a keyword. -/
def Piece.Harmless (inetAton : List Char → Option (BitVec 32)) (p : Piece) : Prop :=
  ¬(kind p.text).Overflows ∧ ((kind p.text).own inetAton {}).isSome ∧
    (p.index ≠ 0 → kind p.text = .skipped ∨
      (kind p.text = .unknown ∧ ¬STR_COMMENT.isPrefixOf p.whole = true))

def CutsHarmlessly (inetAton : List Char → Option (BitVec 32)) (text : List Char) : Prop :=
  ∀ before p behind, piecesFrom 0 (linesOf text) = before ++ p::behind →
    (∀ q ∈ before, q.Passes) → p.Harmless inetAton

section Pieces

theorem map_text_piecesOf (i : ℕ) (l : List Char) : (piecesOf i l).map Piece.text = cut l := by
  rw [piecesOf,List.map_map]
  rfl

theorem map_text_piecesFrom (i : ℕ) (ls : List (List Char)) :
    (piecesFrom i ls).map Piece.text = ls.flatMap cut := by
  induction ls generalizing i with
  | nil => rfl
  | cons l ls ih =>
    rw [piecesFrom,List.map_append,ih,List.flatMap_cons,map_text_piecesOf]

theorem mem_piecesOf {i : ℕ} {l : List Char} {p : Piece} (h : p ∈ piecesOf i l) :
    p.line = i ∧ p.whole = l := by
  obtain ⟨j,-,rfl⟩ := List.mem_map.mp h
  exact ⟨rfl,rfl⟩

theorem mem_piecesFrom {i : ℕ} {ls : List (List Char)} {p : Piece} (h : p ∈ piecesFrom i ls) :
    ∃ k, p.line = i+k ∧ ls[k]? = some p.whole := by
  induction ls generalizing i with
  | nil => exact absurd h List.not_mem_nil
  | cons l ls ih =>
    rcases List.mem_append.mp h with h | h
    · obtain ⟨hline,hwhole⟩ := mem_piecesOf h
      exact ⟨0,hline,by rw [hwhole]; rfl⟩
    · obtain ⟨k,hline,hwhole⟩ := ih h
      exact ⟨k+1,by omega,hwhole⟩

theorem whole_of_mem {text : List Char} {p : Piece} (h : p ∈ piecesFrom 0 (linesOf text)) :
    (linesOf text)[p.line]? = some p.whole := by
  obtain ⟨k,hline,hwhole⟩ := mem_piecesFrom h
  rwa [hline,Nat.zero_add]

theorem piecesFrom_nodup (i : ℕ) (ls : List (List Char)) : (piecesFrom i ls).Nodup := by
  induction ls generalizing i with
  | nil => exact List.nodup_nil
  | cons l ls ih =>
    refine List.Nodup.append ?_ (ih (i+1)) ?_
    · exact List.nodup_range.map fun j k hjk => (Piece.mk.inj hjk).2.2
    · intro p hp hq
      obtain ⟨hline,-⟩ := mem_piecesOf hp
      obtain ⟨k,hline',-⟩ := mem_piecesFrom hq
      omega

theorem kind_first {p : Piece} (hindex : p.index = 0) (h : STR_COMMENT.isPrefixOf p.whole = true) :
    kind p.text = .skipped := by
  apply kind_comment
  rw [Piece.text,hindex,Nat.mul_zero,List.drop_zero]
  obtain ⟨rest,hrest⟩ := List.isPrefixOf_iff_prefix.mp h
  rw [← hrest]
  rfl

end Pieces

section Results
variable {inetAton : List Char → Option (BitVec 32)}

theorem result_cases (inetAton : List Char → Option (BitVec 32)) (k : Kind) (m : Scratch) :
    (k.Overflows ∧ k.result inetAton m = .overflow) ∨
    (k = .unknown ∧ k.result inetAton m = .refused) ∨
    (k = .skipped ∧ k.result inetAton m = .skipped) ∨
    (k ≠ .unknown ∧ k ≠ .skipped ∧ ¬k.Overflows ∧ ∃ r m', k.result inetAton m = .rule r m') := by
  by_cases hover : k.Overflows
  · exact .inl ⟨hover,result_overflow hover m⟩
  · cases k with
    | skipped => exact .inr (.inr (.inl ⟨rfl,rfl⟩))
    | unknown => exact .inr (.inl ⟨rfl,rfl⟩)
    | bind s => exact .inr (.inr (.inr ⟨nofun,nofun,hover,_,_,parseBind_fits hover m⟩))
    | connect action s =>
      refine .inr (.inr (.inr ⟨nofun,nofun,hover,?_⟩))
      exact ⟨_,_,parseConnect_of_scan (scanConnect_fits hover m) action.type⟩

theorem mem_trace {ps : List Piece} {m : Scratch} {e : Piece × LineResult}
    (h : e ∈ trace inetAton ps m) : ∃ before behind m', ps = before ++ e.1::behind ∧
      (∀ q ∈ before, q.Passes) ∧ e.2 = (kind e.1.text).result inetAton m' := by
  induction ps generalizing m with
  | nil => exact absurd h List.not_mem_nil
  | cons p ps ih =>
    rw [trace] at h
    rcases List.mem_cons.mp h with rfl | h
    · exact ⟨[],ps,m,rfl,by simp,rfl⟩
    · have hlater {m' : Scratch} (hp : p.Passes) (h : e ∈ trace inetAton ps m') :
          ∃ before behind m', p::ps = before ++ e.1::behind ∧
            (∀ q ∈ before, q.Passes) ∧ e.2 = (kind e.1.text).result inetAton m' := by
        obtain ⟨before,behind,m'',rfl,hbefore,hresult⟩ := ih h
        exact ⟨p::before,behind,m'',rfl,List.forall_mem_cons.mpr ⟨hp,hbefore⟩,hresult⟩
      rcases result_cases inetAton (kind p.text) m with
        ⟨-,hr⟩ | ⟨-,hr⟩ | ⟨hk,hr⟩ | ⟨hk,-,hover,r,m',hr⟩
      · rw [hr] at h
        exact absurd h List.not_mem_nil
      · rw [hr] at h
        exact absurd h List.not_mem_nil
      · rw [hr] at h
        exact hlater ⟨by rw [hk]; nofun,by rw [hk]; exact id⟩ h
      · rw [hr] at h
        exact hlater ⟨hk,hover⟩ h

theorem mem_trace_of_split {before : List Piece} (h : ∀ q ∈ before, q.Passes) (p : Piece)
    (behind : List Piece) (m : Scratch) :
    ∃ m', (p,(kind p.text).result inetAton m') ∈ trace inetAton (before ++ p::behind) m := by
  induction before generalizing m with
  | nil => exact ⟨m,List.mem_cons_self⟩
  | cons q before ih =>
    obtain ⟨hq,hbefore⟩ := List.forall_mem_cons.mp h
    rw [List.cons_append,trace]
    have hgoes : (kind q.text).result inetAton m = .skipped ∨
        ∃ r m', (kind q.text).result inetAton m = .rule r m' := result_rule hq.2 hq.1 m
    rcases hgoes with hr | ⟨r,m',hr⟩
    · rw [hr]
      obtain ⟨m',hm'⟩ := ih hbefore m
      exact ⟨m',List.mem_cons_of_mem _ hm'⟩
    · rw [hr]
      obtain ⟨m'',hm''⟩ := ih hbefore m'
      exact ⟨m'',List.mem_cons_of_mem _ hm''⟩

theorem trace_sublist (ps : List Piece) (m : Scratch) :
    ((trace inetAton ps m).map Prod.fst).Sublist ps := by
  induction ps generalizing m with
  | nil => exact List.Sublist.refl []
  | cons p ps ih =>
    rw [trace,List.map_cons]
    apply List.Sublist.cons_cons
    cases (kind p.text).result inetAton m with
    | skipped => exact ih m
    | rule r m' => exact ih m'
    | refused => exact List.nil_sublist ps
    | overflow => exact List.nil_sublist ps

theorem parseLines_trace (ps : List Piece) (m : Scratch) :
    parseLines inetAton (ps.map Piece.text) m = outcome (trace inetAton ps m) := by
  induction ps generalizing m with
  | nil => rfl
  | cons p ps ih =>
    rw [List.map_cons,parseLines,trace]
    cases (kind p.text).result inetAton m with
    | skipped => exact ih m
    | rule r m' => exact congrArg (ParseResult.cons r) (ih m')
    | refused => rfl
    | overflow => rfl

/-- The trace is the run of `firewall_parse`. -/
theorem firewallParse_trace (m : Scratch) (text : List Char) :
    firewallParse inetAton m (some text) = (outcome (fileTrace inetAton m text)).onto [] := by
  rw [firewallParse,parseLoop_pieces (Nat.lt_succ_self _),fileTrace,← parseLines_trace,
    map_text_piecesFrom]

end Results

section Unit
variable {inetAton : List Char → Option (BitVec 32)} {m : Scratch} {text : List Char}

theorem length_filterMap_le_one {α β : Type} {f : α → Option β} {l : List α}
    (h : l.Pairwise fun a b => (f a).isSome → f b = none) : (l.filterMap f).length ≤ 1 := by
  induction l with
  | nil => exact Nat.zero_le _
  | cons a l ih =>
    obtain ⟨ha,hl⟩ := List.pairwise_cons.mp h
    cases hfa : f a with
    | none =>
      rw [List.filterMap_cons_none hfa]
      exact ih hl
    | some b =>
      have hnone : l.filterMap f = [] := List.filterMap_eq_nil_iff.mpr fun c hc =>
        ha c hc (by rw [hfa]; rfl)
      rw [List.filterMap_cons_some hfa,hnone]
      exact Nat.le_refl 1

theorem contributed_le_one {i : ℕ} (h : ∀ e ∈ fileTrace inetAton m text, e.1.line = i →
    (e.2.rule?).isSome → e.1.index = 0) : (contributed (fileTrace inetAton m text) i).length ≤ 1 := by
  have hnodup : ((fileTrace inetAton m text).map Prod.fst).Nodup :=
    (piecesFrom_nodup 0 (linesOf text)).sublist (trace_sublist _ m)
  have hmem {e : Piece × LineResult} (he : e ∈ fileTrace inetAton m text) :
      (linesOf text)[e.1.line]? = some e.1.whole :=
    whole_of_mem ((trace_sublist _ m).subset (List.mem_map_of_mem he))
  refine length_filterMap_le_one ((List.pairwise_map.mp hnodup).imp_of_mem ?_)
  -- two rules of the line would both come from its first piece
  intro a b ha hb hne hsome
  by_contra hrule
  obtain ⟨r,hr⟩ := Option.isSome_iff_exists.mp hsome
  obtain ⟨r',hr'⟩ := Option.ne_none_iff_exists'.mp hrule
  split_ifs at hr with hla
  split_ifs at hr' with hlb
  have hia := h a ha hla (by rw [hr]; rfl)
  have hib := h b hb hlb (by rw [hr']; rfl)
  have hwa := hmem ha
  have hwb := hmem hb
  rw [hla] at hwa
  rw [hlb,hwa] at hwb
  apply hne
  cases hpa : a.1
  cases hpb : b.1
  simp only [hpa,hpb] at hla hlb hia hib hwb
  rw [hla,hlb,hia,hib,Option.some.inj hwb]

theorem Piece.text_first {p : Piece} (hindex : p.index = 0) : p.text = p.whole.take 99 := by
  rw [Piece.text,hindex,Nat.mul_zero,List.drop_zero]

/-- A rule that every content of the buffers gives alike has all its fields on the piece. -/
theorem own_of_determined
    (hvaries : ∃ s t a b, inetAton s = some a ∧ inetAton t = some b ∧ a ≠ b) {k : Kind}
    (hover : ¬k.Overflows) {r : FwRule} (h : ∀ m', (k.result inetAton m').rule? = some r) :
    (k.own inetAton {}).isSome := by
  cases hown : k.own inetAton {} with
  | some x => rfl
  | none =>
    obtain ⟨m₁,m₂,r₁,r₂,m₁',m₂',h₁,h₂,hne⟩ := own_none hvaries hover hown
    have hsame₁ := h (Known.fill {} m₁)
    have hsame₂ := h (Known.fill {} m₂)
    rw [h₁] at hsame₁
    rw [h₂] at hsame₂
    exact absurd (Option.some.inj (hsame₁.trans hsame₂.symm)) hne

theorem OneUnit.harmless
    (hvaries : ∃ s t a b, inetAton s = some a ∧ inetAton t = some b ∧ a ≠ b)
    (h : OneUnit inetAton m text) : CutsHarmlessly inetAton text := by
  intro before p behind hsplit hbefore
  obtain ⟨m',hm'⟩ : ∃ m', (p,(kind p.text).result inetAton m') ∈ fileTrace inetAton m text := by
    rw [fileTrace,hsplit]
    exact mem_trace_of_split hbefore p behind m
  have hline : (linesOf text)[p.line]? = some p.whole := whole_of_mem (by simp [hsplit])
  by_cases hcomment : STR_COMMENT.isPrefixOf p.whole = true
  · obtain ⟨hnone,hstop⟩ := h.comment p.line p.whole hline hcomment
    have hskip : kind p.text = .skipped := by
      rcases result_cases inetAton (kind p.text) m' with
        ⟨-,hr⟩ | ⟨-,hr⟩ | ⟨hk,-⟩ | ⟨-,-,-,r,m'',hr⟩
      · exact absurd hr (hstop _ hm' rfl).2
      · exact absurd hr (hstop _ hm' rfl).1
      · exact hk
      · have hrule := List.filterMap_eq_nil_iff.mp hnone _ hm'
        rw [if_pos rfl,hr] at hrule
        cases hrule
    exact ⟨by rw [hskip]; exact id,by rw [hskip]; rfl,fun _ => .inl hskip⟩
  · obtain ⟨hover,hfirst⟩ := (h.other p.line p.whole hline hcomment).2 _ hm' rfl
    rcases result_cases inetAton (kind p.text) m' with
      ⟨-,hr⟩ | ⟨hk,-⟩ | ⟨hk,-⟩ | ⟨-,-,hk,r,m'',hr⟩
    · exact absurd hr hover
    · exact ⟨by rw [hk]; exact id,by rw [hk]; rfl,fun _ => .inr ⟨hk,hcomment⟩⟩
    · exact ⟨by rw [hk]; exact id,by rw [hk]; rfl,fun _ => .inl hk⟩
    · obtain ⟨hindex,hsame⟩ := hfirst r (by rw [hr]; rfl)
      rw [← Piece.text_first hindex] at hsame
      exact ⟨hk,own_of_determined hvaries hk hsame,fun hlater => absurd hindex hlater⟩

theorem CutsHarmlessly.of_mem (h : CutsHarmlessly inetAton text) {e : Piece × LineResult}
    (he : e ∈ fileTrace inetAton m text) : e.1.Harmless inetAton ∧
      (linesOf text)[e.1.line]? = some e.1.whole ∧
      ∃ m', e.2 = (kind e.1.text).result inetAton m' := by
  obtain ⟨before,behind,m',hsplit,hbefore,hresult⟩ := mem_trace he
  exact ⟨h before e.1 behind hsplit hbefore,whole_of_mem (by simp [hsplit]),m',hresult⟩

theorem CutsHarmlessly.comment (h : CutsHarmlessly inetAton text) {e : Piece × LineResult}
    (he : e ∈ fileTrace inetAton m text) (hcomment : STR_COMMENT.isPrefixOf e.1.whole = true) :
    e.2 = .skipped := by
  obtain ⟨⟨-,-,hlater⟩,-,m',hresult⟩ := h.of_mem he
  have hskip : kind e.1.text = .skipped := by
    by_cases hindex : e.1.index = 0
    · exact kind_first hindex hcomment
    · rcases hlater hindex with hk | ⟨-,hno⟩
      · exact hk
      · exact absurd hcomment hno
  rw [hresult,hskip]
  rfl

theorem CutsHarmlessly.other (h : CutsHarmlessly inetAton text) {e : Piece × LineResult}
    (he : e ∈ fileTrace inetAton m text) :
    e.2 ≠ .overflow ∧ ∀ r, e.2.rule? = some r → e.1.index = 0 ∧
      ∀ m', ((kind (e.1.whole.take 99)).result inetAton m').rule? = some r := by
  obtain ⟨⟨hover,hown,hlater⟩,-,m',hresult⟩ := h.of_mem he
  rw [hresult]
  rcases result_cases inetAton (kind e.1.text) m' with
    ⟨hk,-⟩ | ⟨-,hr⟩ | ⟨-,hr⟩ | ⟨hk,hk',-,r,m'',hr⟩
  · exact absurd hk hover
  · rw [hr]
    exact ⟨nofun,nofun⟩
  · rw [hr]
    exact ⟨nofun,nofun⟩
  · rw [hr]
    refine ⟨nofun,fun r' hr' => ?_⟩
    cases hr'
    have hindex : e.1.index = 0 := by
      by_contra hindex
      rcases hlater hindex with hs | ⟨hu,-⟩
      · exact hk' hs
      · exact hk hu
    refine ⟨hindex,?_⟩
    rw [← Piece.text_first hindex]
    exact own_rule hover hk hown hr

/-- Every line of a rules file, whatever its length, is one unit exactly when the pieces
that the loop comes to are harmless. -/
theorem one_unit_iff {inetAton : List Char → Option (BitVec 32)}
    (hvaries : ∃ s t a b, inetAton s = some a ∧ inetAton t = some b ∧ a ≠ b) (m : Scratch)
    (text : List Char) : OneUnit inetAton m text ↔ CutsHarmlessly inetAton text := by
  refine ⟨OneUnit.harmless hvaries,fun h => ⟨?_,?_⟩⟩
  · intro i l hl hcomment
    have hskip : ∀ e ∈ fileTrace inetAton m text, e.1.line = i → e.2 = .skipped := by
      intro e he hi
      have hwhole := (h.of_mem he).2.1
      rw [hi,hl,Option.some.injEq] at hwhole
      exact h.comment he (hwhole ▸ hcomment)
    refine ⟨List.filterMap_eq_nil_iff.mpr fun e he => ?_,fun e he hi => ?_⟩
    · split_ifs with hi
      · rw [hskip e he hi]
        rfl
      · rfl
    · rw [hskip e he hi]
      exact ⟨nofun,nofun⟩
  · intro i l hl _
    refine ⟨contributed_le_one fun e he _ hsome => ?_,fun e he hi => ?_⟩
    · obtain ⟨r,hr⟩ := Option.isSome_iff_exists.mp hsome
      exact ((h.other he).2 r hr).1
    · have hwhole := (h.of_mem he).2.1
      rw [hi,hl,Option.some.injEq] at hwhole
      rw [hwhole]
      exact h.other he

def longComment (rest : List Char) : List Char := '#'::(List.replicate 98 '-' ++ rest)

theorem one_unit_iff_cutComment :
    OneUnit dottedQuad emptyScratch (longComment "# ports\nallow bind 80\n".toList) := by
  refine (one_unit_iff ⟨"0.0.0.0".toList,"1.1.1.1".toList,_,_,rfl,rfl,by decide⟩ _ _).mpr ?_
  intro before p behind hsplit _
  have hlines : linesOf (longComment "# ports\nallow bind 80\n".toList) =
      [longComment "# ports".toList,"allow bind 80".toList] := by decide +kernel
  have hp : p ∈ piecesFrom 0 (linesOf (longComment "# ports\nallow bind 80\n".toList)) := by
    rw [hsplit]
    exact List.mem_append_right _ List.mem_cons_self
  rw [hlines] at hp
  change p ∈ [⟨0,longComment "# ports".toList,0⟩,⟨0,longComment "# ports".toList,1⟩,
    ⟨1,"allow bind 80".toList,0⟩] at hp
  simp only [List.mem_cons,List.not_mem_nil,or_false] at hp
  rcases hp with rfl | rfl | rfl
  · exact ⟨id,rfl,fun _ => .inl rfl⟩
  · exact ⟨id,rfl,fun _ => .inl rfl⟩
  · refine ⟨?_,rfl,fun h => absurd rfl h⟩
    rintro ⟨w,hw,hlong⟩
    cases hw
    exact absurd hlong (by decide)

/-- A rule at the end of a long comment is taken for a rule, and other text there makes the
parser refuse the file. -/
theorem long_comment_cut :
    firewallParse dottedQuad emptyScratch (some (longComment "allow bind 22\n".toList)) =
      .returned 0 [{ type := .bindAllow, port := 22 }] ∧
    firewallParse dottedQuad emptyScratch (some (longComment "ssh\n".toList)) =
      .returned (-1) [] ∧
    ¬OneUnit dottedQuad emptyScratch (longComment "allow bind 22\n".toList) := by
  refine ⟨by decide +kernel,by decide +kernel,fun h => ?_⟩
  have hnone := (h.comment 0 (longComment "allow bind 22".toList) (by decide +kernel) rfl).1
  exact absurd hnone (by decide +kernel)

end Unit

end Firewall
end VmplApps
