import VmplApps.FirewallParse

/-! Malformed rules. `stated` says what one line of a rules file means, if anything;
`firewall_parse` recognises a line by its first words only and converts whatever follows. -/
namespace VmplApps
namespace Firewall

open CText

/-- How a line starts, and the text behind its keyword up to a NUL. -/
inductive Kind
  | skipped
  | bind (text : List Char)
  | connect (action : ConnectAction) (text : List Char)
  | unknown

def kind (l : List Char) : Kind :=
  let s := cString l
  if STR_COMMENT.isPrefixOf s then .skipped
  else if l = [] then .skipped
  else if STR_ALLOW_BIND.isPrefixOf s then .bind (s.drop STR_ALLOW_BIND.length)
  else if STR_ALLOW_CONNECT.isPrefixOf s then .connect .allow (s.drop STR_ALLOW_CONNECT.length)
  else if STR_DENY_CONNECT.isPrefixOf s then .connect .deny (s.drop STR_DENY_CONNECT.length)
  else .unknown

/-- A rule as a line states it; a port is the star or a number. -/
inductive Stated
  | bind (port : Option ℕ)
  | connect (action : ConnectAction) (port : Option ℕ) (ip mask : BitVec 32)

def wordsOf (s : List Char) : List (List Char) := scanWords s.length s

/-- The words behind a keyword, which a blank has to separate from it. -/
def operands (s : List Char) : List (List Char) :=
  if (s.head?).any isSpace then wordsOf s else []

def statedPort (w : List Char) : Option (Option ℕ) :=
  if w = "*".toList then some none
  else if w ≠ [] ∧ w.all Char.isDigit then some (some (digitsValue w))
  else none

section Meaning
variable (inetAton : List Char → Option (BitVec 32))

def Kind.stated : Kind → Option (Option Stated)
  | .skipped => some none
  | .bind s =>
    match operands s with
    | [port] => (statedPort port).map fun p => some (.bind p)
    | _ => none
  | .connect action s =>
    match operands s with
    | [port,ip,mask] => do
      let p ← statedPort port
      let a ← inetAton ip
      let m ← inetAton mask
      some (some (.connect action p a m))
    | _ => none
  | .unknown => none

/-- What a line states: nothing for a comment or a blank line, else a rule with all its
fields; `none` for a malformed line. Only a comment may contain a NUL. -/
def stated (l : List Char) : Option (Option Stated) :=
  if STR_COMMENT.isPrefixOf l then some none
  else if '\x00' ∈ l then none
  else (kind l).stated inetAton

def statedRule (l : List Char) : Option Stated := (stated inetAton l).join

end Meaning

def PortIs : Option ℕ → BitVec 16 → Prop
  | none, port => port = FW_PORT_ANY
  | some n, port => port.toNat = n

def Stated.Matches : Stated → FwRule → Prop
  | .bind port, r => r.type = .bindAllow ∧ PortIs port r.port
  | .connect action port ip mask, r =>
    r.type = action.type ∧ PortIs port r.port ∧ r.ip = ip ∧ r.mask = mask

def Stated.port : Stated → Option ℕ
  | .bind port | .connect _ port _ _ => port

/-- The parser accepts a file of well-formed lines, with one rule for each rule line, and
rejects any other. -/
def RejectsMalformed (inetAton : List Char → Option (BitVec 32)) (text : List Char)
    (result : ParseResult) : Prop :=
  if ∀ l ∈ linesOf text, (stated inetAton l).isSome then
    ∃ rules, result = .returned 0 rules ∧
      List.Forall₂ Stated.Matches ((linesOf text).filterMap (statedRule inetAton)) rules.reverse
  else ∃ rules, result = .returned (-1) rules

def TooLong (words : List (List Char)) (i size : ℕ) : Prop := ∃ w ∈ words[i]?, size ≤ w.length

def Kind.Overflows : Kind → Prop
  | .bind s => TooLong (scanWords 1 s) 0 8
  | .connect _ s =>
    TooLong (scanWords 3 s) 0 8 ∨ TooLong (scanWords 3 s) 1 20 ∨ TooLong (scanWords 3 s) 2 20
  | _ => False

def Fits (inetAton : List Char → Option (BitVec 32)) (l : List Char) : Prop :=
  ¬(kind l).Overflows ∧ ∀ r n, stated inetAton l = some (some r) → r.port = some n → n < 65536

/-- Some line starts with no keyword, and no line before it overflows a buffer. -/
def Stops (ls : List (List Char)) : Prop :=
  ∃ before l behind, ls = before ++ l::behind ∧ kind l = .unknown ∧
    ∀ k ∈ before, ¬(kind k).Overflows

/-- Every line is well-formed and fits, or the parser comes to a line without a keyword. -/
def Recognisable (inetAton : List Char → Option (BitVec 32)) (text : List Char) : Prop :=
  (∀ l ∈ linesOf text, (stated inetAton l).isSome ∧ Fits inetAton l) ∨ Stops (linesOf text)

section Lines
variable {inetAton : List Char → Option (BitVec 32)} {tail : List Char}

def Kind.result (inetAton : List Char → Option (BitVec 32)) (m : Scratch) : Kind → LineResult
  | .skipped => .skipped
  | .bind s => parseBind m s
  | .connect action s => parseConnect inetAton action.type m s
  | .unknown => .refused

theorem isPrefixOf_tail {keyword : List Char} (hk : '\n' ∉ keyword)
    (ht : tail = [] ∨ tail = ['\n']) (s : List Char) :
    keyword.isPrefixOf (s ++ tail) = keyword.isPrefixOf s := by
  rcases ht with rfl | rfl
  · rw [List.append_nil]
  · induction keyword generalizing s with
    | nil => rfl
    | cons k keyword ih =>
      rw [List.mem_cons,not_or] at hk
      cases s with
      | nil =>
        have hne : (k == '\n') = false := beq_eq_false_iff_ne.mpr (Ne.symm hk.1)
        simp [List.isPrefixOf,hne]
      | cons c s => rw [List.cons_append,List.isPrefixOf,List.isPrefixOf,ih hk.2]

theorem cString_line {l : List Char} (hnl : '\n' ∉ l) (ht : tail = [] ∨ tail = ['\n'])
    (hne : l ++ tail ≠ []) : ∃ t, (t = [] ∨ t = ['\n']) ∧ cString (l ++ tail) = cString l ++ t ∧
      (cString (l ++ tail) = "\n".toList ↔ l = []) := by
  by_cases hnul : '\x00' ∈ l
  · obtain ⟨a,b,rfl,ha⟩ := List.eq_append_cons_of_mem hnul
    have hcut (rest : List Char) : cString (a ++ '\x00'::rest) = a := by
      have hall : ∀ c ∈ a, (c != '\x00') = true := fun c hc => bne_iff_ne.mpr fun h => ha (h ▸ hc)
      exact takeWhile_stop hall rfl rest
    rw [List.append_assoc,List.cons_append,hcut,hcut]
    refine ⟨[],.inl rfl,(List.append_nil a).symm,iff_of_false ?_ (by simp)⟩
    rintro rfl
    exact hnl (List.mem_append_left _ (by decide))
  · have hnul' : '\x00' ∉ l ++ tail := by
      rw [List.mem_append,not_or]
      refine ⟨hnul,?_⟩
      rcases ht with rfl | rfl <;> decide
    rw [cString_eq_self hnul,cString_eq_self hnul']
    refine ⟨tail,ht,rfl,?_⟩
    rcases ht with rfl | rfl
    · rw [List.append_nil] at hne ⊢
      refine iff_of_false ?_ hne
      rintro rfl
      exact hnl (by decide)
    · exact ⟨fun h => List.append_left_eq_self.mp h,fun h => by rw [h]; rfl⟩

theorem parseBind_tail (ht : tail.all isSpace) (m : Scratch) (s : List Char) :
    parseBind m (s ++ tail) = parseBind m s := by
  rw [parseBind,scanWords_tail ht,parseBind]

theorem parseConnect_tail (ht : tail.all isSpace) (type : FwType) (m : Scratch) (s : List Char) :
    parseConnect inetAton type m (s ++ tail) = parseConnect inetAton type m s := by
  rw [parseConnect,scanConnect,scanWords_tail ht,parseConnect,scanConnect]

/-- The parser sees the kind of a line and what follows its keyword, whether or not the
line has its end. -/
theorem parseLine_kind {l : List Char} (hnl : '\n' ∉ l) (ht : tail = [] ∨ tail = ['\n'])
    (hne : l ++ tail ≠ []) (m : Scratch) :
    parseLine inetAton m (cString (l ++ tail)) = (kind l).result inetAton m := by
  obtain ⟨t,ht',hstr,hblank⟩ := cString_line hnl ht hne
  have hspace : t.all isSpace := by rcases ht' with rfl | rfl <;> decide
  have hdrop {keyword : List Char} (hp : keyword.isPrefixOf (cString l) = true) :
      (cString l ++ t).drop keyword.length = (cString l).drop keyword.length ++ t :=
    List.drop_append_of_le_length (List.isPrefixOf_iff_prefix.mp hp).length_le
  simp only [parseLine,kind,hblank]
  rw [hstr,isPrefixOf_tail (by decide) ht',isPrefixOf_tail (by decide) ht',
    isPrefixOf_tail (by decide) ht',isPrefixOf_tail (by decide) ht']
  split_ifs with hcomment hempty hbind hallow hdeny
  · rfl
  · rfl
  · rw [hdrop hbind]
    exact parseBind_tail hspace m _
  · rw [hdrop hallow]
    exact parseConnect_tail hspace .connectAllow m _
  · rw [hdrop hdeny]
    exact parseConnect_tail hspace .connectDeny m _
  · rfl

theorem parseLine_piece {p : List Char} (hnl : '\n' ∉ p) (hne : p ≠ []) (m : Scratch) :
    parseLine inetAton m (cString p) = (kind p).result inetAton m := by
  have hline : parseLine inetAton m (cString (p ++ [])) = (kind p).result inetAton m :=
    parseLine_kind hnl (.inl rfl) (by simpa using hne) m
  rwa [List.append_nil] at hline

theorem storeWord_eq_none {words : List (List Char)} {i size : ℕ} {buf : List Char} :
    storeWord size words[i]? buf = none ↔ TooLong words i size := by
  cases hw : words[i]? with
  | none => simp [storeWord,TooLong,hw]
  | some w =>
    rw [storeWord,TooLong,hw]
    split_ifs with hlt <;> simp <;> omega

theorem result_overflow {k : Kind} (h : k.Overflows) (m : Scratch) :
    k.result inetAton m = .overflow := by
  cases k with
  | skipped => exact h.elim
  | unknown => exact h.elim
  | bind s =>
    rw [Kind.result,parseBind,storeWord_eq_none.mpr h]
  | connect action s =>
    have hscan : scanConnect m s = none := by
      rcases h with h | h | h
      · simp [scanConnect,storeWord_eq_none.mpr h]
      · simp [scanConnect,storeWord_eq_none.mpr h]
      · simp [scanConnect,storeWord_eq_none.mpr h]
    rw [Kind.result,parseConnect,hscan]

/-- `inet_aton` never returns a negative number, so a connect rule is never refused. -/
theorem parseConnect_of_scan {m m' : Scratch} {s : List Char} (h : scanConnect m s = some m')
    (type : FwType) : parseConnect inetAton type m s =
      let a := callInetAton inetAton m'.ip m'.inp
      let b := callInetAton inetAton m'.mask a.2
      .rule { type := type, port := portOf m'.port, ip := a.2, mask := b.2 }
        { m' with inp := b.2 } := by
  have hnonneg (text : List Char) (inp : BitVec 32) : ¬(callInetAton inetAton text inp).1 < 0 := by
    rw [callInetAton]
    cases inetAton text <;> simp
  simp only [parseConnect,h,if_neg (hnonneg _ _)]

theorem storeWord_fits {words : List (List Char)} {i size : ℕ} (h : ¬TooLong words i size)
    (buf : List Char) : storeWord size words[i]? buf = some (words[i]?.getD buf) := by
  cases hw : words[i]? with
  | none => rfl
  | some w =>
    have hlen : w.length < size := by
      by_contra hlong
      exact h ⟨w,hw,Nat.le_of_not_lt hlong⟩
    exact if_pos hlen

theorem parseBind_fits {s : List Char} (h : ¬(Kind.bind s).Overflows) (m : Scratch) :
    parseBind m s = .rule
      { type := .bindAllow, port := portOf ((scanWords 1 s)[0]?.getD m.port) }
      { m with port := (scanWords 1 s)[0]?.getD m.port } := by
  rw [parseBind,storeWord_fits h]

theorem scanConnect_fits {action : ConnectAction} {s : List Char}
    (h : ¬(Kind.connect action s).Overflows) (m : Scratch) :
    scanConnect m s = some { m with
      port := (scanWords 3 s)[0]?.getD m.port
      ip := (scanWords 3 s)[1]?.getD m.ip
      mask := (scanWords 3 s)[2]?.getD m.mask } := by
  rw [Kind.Overflows,not_or,not_or] at h
  simp only [scanConnect,storeWord_fits h.1,storeWord_fits h.2.1,storeWord_fits h.2.2]
  rfl

theorem result_rule {k : Kind} (h : ¬k.Overflows) (hunknown : k ≠ .unknown) (m : Scratch) :
    k.result inetAton m = .skipped ∨ ∃ r m', k.result inetAton m = .rule r m' := by
  cases k with
  | skipped => exact .inl rfl
  | unknown => exact absurd rfl hunknown
  | bind s => exact .inr ⟨_,_,parseBind_fits h m⟩
  | connect action s =>
    exact .inr ⟨_,_,parseConnect_of_scan (scanConnect_fits h m) action.type⟩

theorem statedPort_some {w : List Char} {p : Option ℕ} (h : statedPort w = some p) :
    PortIs p (portOf w) ↔ ∀ n, p = some n → n < 65536 := by
  rw [statedPort] at h
  split_ifs at h with hstar hdigits
  · cases h
    refine iff_of_true ?_ (by simp)
    rw [portOf,if_pos hstar]
    rfl
  · cases h
    rw [PortIs,portOf,if_neg hstar,atoi_digits hdigits.2,BitVec.ofInt_natCast,BitVec.toNat_ofNat]
    simp only [Option.some.injEq,forall_eq']
    omega

theorem scanWords_operands {s : List Char} {ws : List (List Char)} (h : operands s = ws)
    (hne : ws ≠ []) : scanWords ws.length s = ws := by
  rw [operands] at h
  split_ifs at h with hblank
  · have hlen := scanWords_length_le s.length s
    rw [wordsOf] at h
    rw [h] at hlen
    rw [scanWords_take hlen,h,List.take_length]
  · exact absurd h.symm hne

theorem bind_of_stated {s : List Char} {st : Stated}
    (h : (Kind.bind s).stated inetAton = some (some st)) :
    ∃ port p, operands s = [port] ∧ statedPort port = some p ∧ st = .bind p := by
  rw [Kind.stated] at h
  split at h
  · rename_i port hwords
    obtain ⟨p,hp,hst⟩ := Option.map_eq_some_iff.mp h
    cases hst
    exact ⟨port,p,hwords,hp,rfl⟩
  · cases h

theorem connect_of_stated {action : ConnectAction} {s : List Char} {st : Stated}
    (h : (Kind.connect action s).stated inetAton = some (some st)) :
    ∃ port ip mask p a k, operands s = [port,ip,mask] ∧ statedPort port = some p ∧
      inetAton ip = some a ∧ inetAton mask = some k ∧ st = .connect action p a k := by
  rw [Kind.stated] at h
  split at h
  · rename_i port ip mask hwords
    simp only [Option.bind_eq_bind,Option.bind_eq_some_iff] at h
    obtain ⟨p,hp,a,ha,k,hk,hst⟩ := h
    cases hst
    exact ⟨port,ip,mask,p,a,k,hwords,hp,ha,hk,rfl⟩
  · cases h

/-- A well-formed rule line that overflows no buffer gives the rule it states, as far as
sixteen bits can hold the port. -/
theorem result_stated {k : Kind} {st : Stated} (h : k.stated inetAton = some (some st))
    (hover : ¬k.Overflows) (m : Scratch) : ∃ r m', k.result inetAton m = .rule r m' ∧
      (st.Matches r ↔ ∀ n, st.port = some n → n < 65536) := by
  cases k with
  | skipped => cases h
  | unknown => cases h
  | bind s =>
    obtain ⟨port,p,hwords,hp,rfl⟩ := bind_of_stated h
    have hscan : scanWords 1 s = [port] := scanWords_operands hwords (List.cons_ne_nil _ _)
    rw [Kind.Overflows,hscan] at hover
    have hfits : port.length < 8 := by simpa [TooLong] using hover
    refine ⟨{ type := .bindAllow, port := portOf port },{ m with port := port },?_,?_⟩
    · simp [Kind.result,parseBind,hscan,storeWord,hfits]
    · exact (and_iff_right rfl).trans (statedPort_some hp)
  | connect action s =>
    obtain ⟨port,ip,mask,p,a,k,hwords,hp,ha,hk,rfl⟩ := connect_of_stated h
    have hscan : scanWords 3 s = [port,ip,mask] :=
      scanWords_operands hwords (List.cons_ne_nil _ _)
    rw [Kind.Overflows,hscan] at hover
    obtain ⟨h1,h2,h3⟩ : port.length < 8 ∧ ip.length < 20 ∧ mask.length < 20 := by
      simpa [TooLong] using hover
    have hstored : scanConnect m s = some { m with port := port, ip := ip, mask := mask } := by
      simp [scanConnect,hscan,storeWord,h1,h2,h3]
    refine ⟨{ type := action.type, port := portOf port, ip := a, mask := k },⟨port,ip,mask,k⟩,?_,?_⟩
    · rw [Kind.result,parseConnect_of_scan hstored]
      simp [callInetAton,ha,hk]
    · exact (and_iff_right rfl).trans ((and_iff_left ⟨rfl,rfl⟩).trans (statedPort_some hp))

theorem kind_comment {l : List Char} (h : STR_COMMENT.isPrefixOf l = true) : kind l = .skipped := by
  obtain ⟨rest,rfl⟩ := List.isPrefixOf_iff_prefix.mp h
  rfl

theorem kind_of_stated_none {l : List Char} (h : stated inetAton l = some none) :
    kind l = .skipped := by
  rw [stated] at h
  split_ifs at h with hcomment
  · exact kind_comment hcomment
  · cases hk : kind l with
    | skipped => rfl
    | unknown =>
      rw [hk] at h
      cases h
    | bind s =>
      rw [hk,Kind.stated] at h
      split at h
      · obtain ⟨p,-,hst⟩ := Option.map_eq_some_iff.mp h
        cases hst
      · cases h
    | connect action s =>
      rw [hk,Kind.stated] at h
      split at h
      · simp only [Option.bind_eq_bind,Option.bind_eq_some_iff] at h
        obtain ⟨p,-,a,-,k,-,hst⟩ := h
        cases hst
      · cases h

theorem kind_of_stated_some {l : List Char} {st : Stated}
    (h : stated inetAton l = some (some st)) : (kind l).stated inetAton = some (some st) := by
  rw [stated] at h
  split_ifs at h
  · cases h
  · exact h

theorem stated_unknown {l : List Char} (h : kind l = .unknown) : stated inetAton l = none := by
  rw [stated]
  split_ifs with hcomment
  · rw [kind_comment hcomment] at h
    cases h
  · rfl
  · rw [h]
    rfl

end Lines

def ParseResult.cons (r : FwRule) : ParseResult → ParseResult
  | .returned value rules => .returned value (r::rules)
  | x => x

def ParseResult.onto (rules : List FwRule) : ParseResult → ParseResult
  | .returned value rules' => .returned value (rules'.reverse ++ rules)
  | x => x

def parseLines (inetAton : List Char → Option (BitVec 32)) : List (List Char) → Scratch → ParseResult
  | [], _ => .returned 0 []
  | l::ls, m =>
    match (kind l).result inetAton m with
    | .skipped => parseLines inetAton ls m
    | .refused => .returned (-1) []
    | .overflow => .overflow
    | .rule r m' => (parseLines inetAton ls m').cons r

section File
variable {inetAton : List Char → Option (BitVec 32)}

theorem onto_cons (r : FwRule) (rules : List FwRule) (x : ParseResult) :
    (x.cons r).onto rules = x.onto (r::rules) := by
  cases x with
  | returned value rules' => simp [ParseResult.cons,ParseResult.onto]
  | overflow => rfl
  | outOfFuel => rfl

theorem parseLoop_eof {n : ℕ} (rest : List Char) (m : Scratch) (rules : List FwRule) :
    parseLoop inetAton (n+1) ⟨rest,true⟩ m rules = .returned 0 rules := by
  rw [parseLoop,if_pos rfl]

theorem parseLoop_turn {n : ℕ} {text buf p : List Char} {f : Stream} {ps : List (List Char)}
    (hread : fgets 100 ⟨text,false⟩ = (some buf,f))
    (hline : ∀ m, parseLine inetAton m (cString buf) = (kind p).result inetAton m)
    (hrest : ∀ m rules, parseLoop inetAton n f m rules = (parseLines inetAton ps m).onto rules)
    (m : Scratch) (rules : List FwRule) :
    parseLoop inetAton (n+1) ⟨text,false⟩ m rules =
      (parseLines inetAton (p::ps) m).onto rules := by
  rw [parseLoop,parseLines]
  simp only [Bool.false_eq_true,if_false,hread,hline]
  cases (kind p).result inetAton m with
  | skipped => exact hrest m rules
  | refused => rfl
  | overflow => rfl
  | rule r m' => exact (hrest m' (r::rules)).trans (onto_cons r rules _).symm

/-- The pieces that `fgets` makes of a line: the buffer takes 99 characters. A line end
that starts a new piece reads as a blank line. -/
def cut (l : List Char) : List (List Char) :=
  (List.range (l.length/99+1)).map fun j => (l.drop (99*j)).take 99

theorem cut_short {l : List Char} (h : l.length ≤ 98) : cut l = [l] := by
  have hone : l.length/99 = 0 := Nat.div_eq_of_lt (by omega)
  simp only [cut,hone,zero_add,List.range_one,List.map_cons,List.map_nil,Nat.mul_zero,List.drop_zero]
  rw [List.take_of_length_le (by omega)]

theorem cut_long {l : List Char} (h : 99 ≤ l.length) : cut l = l.take 99::cut (l.drop 99) := by
  have hcount : l.length/99 = (l.length-99)/99+1 := by omega
  simp only [cut,List.length_drop]
  rw [hcount,List.range_succ_eq_map,List.map_cons,List.map_map,Nat.mul_zero,List.drop_zero]
  congr 1
  refine List.map_congr_left fun j _ => ?_
  rw [Function.comp_apply,List.drop_drop,Nat.mul_succ,Nat.add_comm]

/-- For a last line without its end the piece that reads as a blank line is not there. -/
theorem parseLines_last {t : List Char} (ht : '\n' ∉ t) (m : Scratch) :
    parseLines inetAton ((linesOf t).flatMap cut) m = parseLines inetAton (cut t) m := by
  by_cases hne : t = []
  · rw [hne]
    rfl
  · rw [linesOf_last ht hne,List.flatMap_cons,List.flatMap_nil,List.append_nil]

theorem parseLoop_long {n : ℕ} {l rest : List Char} {ps : List (List Char)} (hnl : '\n' ∉ l)
    (hlong : 99 ≤ l.length)
    (hrest : ∀ m rules, parseLoop inetAton n ⟨l.drop 99 ++ rest,false⟩ m rules =
      (parseLines inetAton ps m).onto rules) (m : Scratch) (rules : List FwRule) :
    parseLoop inetAton (n+1) ⟨l ++ rest,false⟩ m rules =
      (parseLines inetAton (l.take 99::ps) m).onto rules := by
  refine parseLoop_turn (fgets_long rest hnl hlong) (fun m => ?_) hrest m rules
  have hne : l.take 99 ≠ [] := by
    intro h
    have hlen := congrArg List.length h
    rw [List.length_take,List.length_nil] at hlen
    omega
  exact parseLine_piece (fun h => hnl (List.mem_of_mem_take h)) hne m

/-- The loop goes through the pieces of the lines of the file. -/
theorem parseLoop_pieces {n : ℕ} {text : List Char} (hn : text.length < n) (m : Scratch)
    (rules : List FwRule) : parseLoop inetAton n ⟨text,false⟩ m rules =
      (parseLines inetAton ((linesOf text).flatMap cut) m).onto rules := by
  induction n generalizing text m rules with
  | zero => exact absurd hn (Nat.not_lt_zero _)
  | succ n ih =>
    rcases text_cases text with rfl | ⟨hnl,hne⟩ | ⟨l,rest,hnl,rfl⟩
    · rw [parseLoop_end]
      rfl
    · rw [parseLines_last hnl]
      have hpos := List.length_pos_of_ne_nil hne
      by_cases hshort : text.length ≤ 98
      · obtain ⟨k,rfl⟩ : ∃ k, n = k+1 := ⟨n-1,by omega⟩
        rw [cut_short hshort]
        exact parseLoop_turn (fgets_last hnl hne (by omega)) (parseLine_piece hnl hne)
          (fun m rules => parseLoop_eof [] m rules) m rules
      · have hlong := Nat.lt_of_not_le hshort
        have hdrop : (text.drop 99 ++ []).length < n := by
          rw [List.append_nil,List.length_drop]
          omega
        have hrest (m : Scratch) (rules : List FwRule) :
            parseLoop inetAton n ⟨text.drop 99 ++ [],false⟩ m rules =
              (parseLines inetAton (cut (text.drop 99)) m).onto rules := by
          rw [ih hdrop,List.append_nil,parseLines_last fun h => hnl (List.mem_of_mem_drop h)]
        have hturn := parseLoop_long hnl hlong hrest m rules
        rwa [List.append_nil,← cut_long hlong] at hturn
    · rw [linesOf_line rest hnl,List.flatMap_cons]
      rw [List.length_append,List.length_cons] at hn
      by_cases hshort : l.length ≤ 98
      · rw [cut_short hshort]
        exact parseLoop_turn (fgets_line rest hnl (by omega))
          (parseLine_kind hnl (.inr rfl) (by simp)) (fun m rules => ih (by omega) m rules) m rules
      · have hlong := Nat.lt_of_not_le hshort
        have hlen : (l.drop 99 ++ '\n'::rest).length < n := by
          rw [List.length_append,List.length_drop,List.length_cons]
          omega
        have hdrop : '\n' ∉ l.drop 99 := fun h => hnl (List.mem_of_mem_drop h)
        rw [cut_long hlong]
        refine parseLoop_long hnl hlong (fun m rules => ?_) m rules
        have hrun := ih hlen m rules
        rw [linesOf_line rest hdrop,List.flatMap_cons] at hrun
        exact hrun

theorem parseLoop_lines {n : ℕ} {text : List Char} (hlen : ∀ l ∈ linesOf text, l.length ≤ 98)
    (hn : text.length < n) (m : Scratch) (rules : List FwRule) :
    parseLoop inetAton n ⟨text,false⟩ m rules =
      (parseLines inetAton (linesOf text) m).onto rules := by
  have hcut : (linesOf text).flatMap cut = linesOf text := by
    rw [List.flatMap_congr fun l hl => cut_short (hlen l hl),List.flatMap_singleton']
  rw [parseLoop_pieces hn,hcut]

theorem accepted_cons {st : Stated} {ss : List Stated} (r : FwRule) (x : ParseResult) :
    (∃ rules, x.cons r = .returned 0 rules ∧ List.Forall₂ Stated.Matches (st::ss) rules) ↔
      st.Matches r ∧ ∃ rules, x = .returned 0 rules ∧ List.Forall₂ Stated.Matches ss rules := by
  cases x with
  | returned value rules' =>
    simp only [ParseResult.cons,ParseResult.returned.injEq]
    constructor
    · rintro ⟨rules,⟨hv,rfl⟩,hmatch⟩
      obtain ⟨hr,hrest⟩ := List.forall₂_cons.mp hmatch
      exact ⟨hr,rules',⟨hv,rfl⟩,hrest⟩
    · rintro ⟨hr,rules,⟨hv,rfl⟩,hrest⟩
      exact ⟨_,⟨hv,rfl⟩,.cons hr hrest⟩
  | overflow => simp [ParseResult.cons]
  | outOfFuel => simp [ParseResult.cons]

theorem returned_cons (value : ℤ) (r : FwRule) (x : ParseResult) :
    (∃ rules, x.cons r = .returned value rules) ↔ ∃ rules, x = .returned value rules := by
  cases x <;> simp [ParseResult.cons]

/-- Well-formed lines give the rules they state exactly when all of them fit. -/
theorem parseLines_stated_iff (ls : List (List Char))
    (h : ∀ l ∈ ls, (stated inetAton l).isSome) (m : Scratch) :
    (∃ rules, parseLines inetAton ls m = .returned 0 rules ∧
      List.Forall₂ Stated.Matches (ls.filterMap (statedRule inetAton)) rules) ↔
      ∀ l ∈ ls, Fits inetAton l := by
  induction ls generalizing m with
  | nil => simp [parseLines]
  | cons l ls ih =>
    rw [List.forall_mem_cons] at h ⊢
    obtain ⟨hl,hls⟩ := h
    obtain ⟨st,hst⟩ := Option.isSome_iff_exists.mp hl
    cases st with
    | none =>
      have hkind := kind_of_stated_none hst
      have hfits : Fits inetAton l := by
        refine ⟨by rw [hkind]; exact id,?_⟩
        intro r n hr
        rw [hst] at hr
        cases hr
      have hskip : parseLines inetAton (l::ls) m = parseLines inetAton ls m := by
        rw [parseLines,hkind]
        rfl
      have hnothing : statedRule inetAton l = none := by rw [statedRule,hst]; rfl
      rw [hskip,List.filterMap_cons_none hnothing,ih hls]
      exact (and_iff_right hfits).symm
    | some st =>
      have hstated := kind_of_stated_some hst
      have hsome : statedRule inetAton l = some st := by rw [statedRule,hst]; rfl
      rw [List.filterMap_cons_some hsome]
      by_cases hover : (kind l).Overflows
      · refine iff_of_false ?_ fun h => h.1.1 hover
        rintro ⟨rules,hrun,-⟩
        rw [parseLines,result_overflow hover] at hrun
        cases hrun
      · obtain ⟨r,m',hresult,hmatch⟩ := result_stated hstated hover m
        have hrule : parseLines inetAton (l::ls) m = (parseLines inetAton ls m').cons r := by
          rw [parseLines,hresult]
        have hfits : Fits inetAton l ↔ st.Matches r := by
          rw [hmatch,Fits,and_iff_right hover,hst]
          refine ⟨fun h n => h st n rfl,fun h r n hr => ?_⟩
          cases hr
          exact h n
        rw [hrule,hfits,← ih hls m',accepted_cons]

theorem stops_cons (l : List Char) (ls : List (List Char)) :
    Stops (l::ls) ↔ kind l = .unknown ∨ (¬(kind l).Overflows ∧ Stops ls) := by
  constructor
  · rintro ⟨before,x,behind,heq,hx,hbefore⟩
    cases before with
    | nil =>
      cases heq
      exact .inl hx
    | cons k before =>
      cases heq
      rw [List.forall_mem_cons] at hbefore
      exact .inr ⟨hbefore.1,before,x,behind,rfl,hx,hbefore.2⟩
  · rintro (hl | ⟨hl,before,x,behind,rfl,hx,hbefore⟩)
    · exact ⟨[],l,ls,rfl,hl,by simp⟩
    · exact ⟨l::before,x,behind,rfl,hx,List.forall_mem_cons.mpr ⟨hl,hbefore⟩⟩

/-- The parser refuses a file exactly when it comes to a line that starts with no keyword. -/
theorem parseLines_refused_iff (ls : List (List Char)) (m : Scratch) :
    (∃ rules, parseLines inetAton ls m = .returned (-1) rules) ↔ Stops ls := by
  induction ls generalizing m with
  | nil => simp [parseLines,Stops]
  | cons l ls ih =>
    rw [stops_cons]
    by_cases hunknown : kind l = .unknown
    · have hrefused : parseLines inetAton (l::ls) m = .returned (-1) [] := by
        rw [parseLines,hunknown]
        rfl
      exact iff_of_true ⟨[],hrefused⟩ (.inl hunknown)
    · rw [or_iff_right hunknown]
      by_cases hover : (kind l).Overflows
      · have hlost : parseLines inetAton (l::ls) m = .overflow := by
          rw [parseLines,result_overflow hover]
        refine iff_of_false ?_ fun h => h.1 hover
        rintro ⟨rules,hrun⟩
        rw [hlost] at hrun
        cases hrun
      · rw [and_iff_right hover,parseLines]
        rcases result_rule hover hunknown m with hskip | ⟨r,m',hrule⟩
        · rw [hskip]
          exact ih m
        · rw [hrule]
          exact (returned_cons (-1) r _).trans (ih m')

theorem firewallParse_lines {text : List Char} (hlen : ∀ l ∈ linesOf text, l.length ≤ 98)
    (m : Scratch) : firewallParse inetAton m (some text) =
      (parseLines inetAton (linesOf text) m).onto [] :=
  parseLoop_lines hlen (Nat.lt_succ_self _) m []

theorem onto_nil_returned {x : ParseResult} {value : ℤ} {rules : List FwRule} :
    x.onto [] = .returned value rules ↔ x = .returned value rules.reverse := by
  cases x with
  | returned v rs =>
    simp only [ParseResult.onto,List.append_nil,ParseResult.returned.injEq]
    exact and_congr_right fun _ => List.reverse_eq_iff
  | overflow => simp [ParseResult.onto]
  | outOfFuel => simp [ParseResult.onto]

end File

/-- Whatever the buffers hold at first, the parser does as it should on a file exactly when
the file is recognisable. -/
theorem firewallParse_rejects_iff (inetAton : List Char → Option (BitVec 32)) (m : Scratch)
    (text : List Char) (hlen : ∀ l ∈ linesOf text, l.length ≤ 98) :
    RejectsMalformed inetAton text (firewallParse inetAton m (some text)) ↔
      Recognisable inetAton text := by
  rw [RejectsMalformed,firewallParse_lines hlen,Recognisable]
  by_cases hall : ∀ l ∈ linesOf text, (stated inetAton l).isSome
  · have hno : ¬Stops (linesOf text) := by
      rintro ⟨before,l,behind,heq,hunknown,-⟩
      have hl := hall l (by rw [heq]; simp)
      rw [stated_unknown hunknown] at hl
      cases hl
    have hiff := parseLines_stated_iff (linesOf text) hall m
    rw [if_pos hall,or_iff_left hno]
    constructor
    · rintro ⟨rules,hrun,hmatch⟩
      have hfits := hiff.mp ⟨_,onto_nil_returned.mp hrun,hmatch⟩
      exact fun l hl => ⟨hall l hl,hfits l hl⟩
    · intro h
      obtain ⟨rules,hrun,hmatch⟩ := hiff.mpr fun l hl => (h l hl).2
      rw [← List.reverse_reverse rules] at hrun hmatch
      exact ⟨_,onto_nil_returned.mpr hrun,hmatch⟩
  · rw [if_neg hall,or_iff_right fun h => hall fun l hl => (h l hl).1,
      ← parseLines_refused_iff (linesOf text) m]
    constructor
    · rintro ⟨rules,hrun⟩
      exact ⟨_,onto_nil_returned.mp hrun⟩
    · rintro ⟨rules,hrun⟩
      rw [← List.reverse_reverse rules] at hrun
      exact ⟨_,onto_nil_returned.mpr hrun⟩

def webPort : List Char := "allow bind 80".toList

theorem firewallParse_rejects_iff_webPort :
    RejectsMalformed dottedQuad (webPort ++ ['\n'])
      (firewallParse dottedQuad emptyScratch (some (webPort ++ ['\n']))) := by
  have hlines : linesOf (webPort ++ ['\n']) = [webPort] := rfl
  have hkind : kind webPort = .bind " 80".toList := rfl
  have hstated : stated dottedQuad webPort = some (some (.bind (some 80))) := rfl
  apply (firewallParse_rejects_iff dottedQuad emptyScratch (webPort ++ ['\n']) (by decide)).mpr
  refine .inl fun l hl => ?_
  obtain rfl := List.mem_singleton.mp (hlines ▸ hl)
  refine ⟨by rw [hstated]; rfl,?_,fun r n hr hn => ?_⟩
  · rw [hkind]
    rintro ⟨w,hw,hlong⟩
    cases hw
    exact absurd hlong (by decide)
  · rw [hstated] at hr
    cases hr
    cases hn
    decide

def serviceName : List Char := "allow bind http\n".toList

/-- The name is taken for port zero, the wildcard: the file is accepted, and every port is
open to `bind`. -/
theorem serviceName_accepted :
    ¬RejectsMalformed dottedQuad serviceName
      (firewallParse dottedQuad emptyScratch (some serviceName)) ∧
    firewallParse dottedQuad emptyScratch (some serviceName) =
      .returned 0 [{ type := .bindAllow, port := FW_PORT_ANY }] := by
  have hrun : firewallParse dottedQuad emptyScratch (some serviceName) =
      .returned 0 [{ type := .bindAllow, port := FW_PORT_ANY }] := rfl
  refine ⟨?_,hrun⟩
  rw [RejectsMalformed,hrun,if_neg (by decide)]
  rintro ⟨rules,hrules⟩
  exact absurd (ParseResult.returned.inj hrules).1 (by decide)

end Firewall
end VmplApps
