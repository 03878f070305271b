import VmplApps.CText
import VmplApps.FirewallRules

/-! `firewall_parse` and the decisions its rule list makes. Rules go in at the
head of the list and the checks take the first that applies, so for a file of
comments, blank lines and complete rules the last connect rule decides. A bind
rule is a number cut to sixteen bits, and zero is the wildcard. -/
namespace VmplApps
namespace Firewall

open CText

/-- The buffers that outlive one turn of the loop. -/
structure Scratch where
  port : List Char
  ip : List Char
  mask : List Char
  inp : BitVec 32

inductive LineResult
  | skipped
  | refused
  /-- A word longer than the buffer `sscanf` writes it to. -/
  | overflow
  | rule (r : FwRule) (m : Scratch)

inductive ParseResult
  | returned (value : ℤ) (rules : List FwRule)
  | overflow
  | outOfFuel
  deriving DecidableEq

def STR_COMMENT : List Char := "#".toList
def STR_ALLOW_BIND : List Char := "allow bind".toList
def STR_ALLOW_CONNECT : List Char := "allow connect".toList
def STR_DENY_CONNECT : List Char := "deny connect".toList

/-- A converted word replaces the buffer; without one the buffer stays. -/
def storeWord (size : ℕ) : Option (List Char) → List Char → Option (List Char)
  | none, buf => some buf
  | some w, _ => if w.length < size then some w else none

def portOf (port : List Char) : BitVec 16 :=
  if port = "*".toList then FW_PORT_ANY else BitVec.ofInt 16 (atoi port)

def parseBind (m : Scratch) (s : List Char) : LineResult :=
  match storeWord 8 (scanWords 1 s)[0]? m.port with
  | none => .overflow
  | some port => .rule { type := .bindAllow, port := portOf port } { m with port := port }

section Parser

-- `inet_aton` returns 1 and stores the address, or 0 and stores nothing.
variable (inetAton : List Char → Option (BitVec 32))

def callInetAton (text : List Char) (inp : BitVec 32) : ℤ × BitVec 32 :=
  match inetAton text with
  | none => (0,inp)
  | some addr => (1,addr)

def scanConnect (m : Scratch) (s : List Char) : Option Scratch := do
  let words := scanWords 3 s
  let port ← storeWord 8 words[0]? m.port
  let ip ← storeWord 20 words[1]? m.ip
  let mask ← storeWord 20 words[2]? m.mask
  return { m with port := port, ip := ip, mask := mask }

def parseConnect (type : FwType) (m : Scratch) (s : List Char) : LineResult :=
  match scanConnect m s with
  | none => .overflow
  | some m =>
    let a := callInetAton inetAton m.ip m.inp
    if a.1 < 0 then .refused
    else
      let b := callInetAton inetAton m.mask a.2
      if b.1 < 0 then .refused
      else .rule { type := type, port := portOf m.port, ip := a.2, mask := b.2 }
        { m with inp := b.2 }

def parseLine (m : Scratch) (str : List Char) : LineResult :=
  if STR_COMMENT.isPrefixOf str then .skipped
  else if str = "\n".toList then .skipped
  else if STR_ALLOW_BIND.isPrefixOf str then
    parseBind m (str.drop STR_ALLOW_BIND.length)
  else if STR_ALLOW_CONNECT.isPrefixOf str then
    parseConnect inetAton .connectAllow m (str.drop STR_ALLOW_CONNECT.length)
  else if STR_DENY_CONNECT.isPrefixOf str then
    parseConnect inetAton .connectDeny m (str.drop STR_DENY_CONNECT.length)
  else .refused

def parseLoop : ℕ → Stream → Scratch → List FwRule → ParseResult
  | 0, _, _, _ => .outOfFuel
  | n+1, f, m, rules =>
    if f.eof then .returned 0 rules
    else match fgets 100 f with
      | (none,_) => .returned 0 rules
      | (some buf,f') => match parseLine inetAton m (cString buf) with
        | .skipped => parseLoop n f' m rules
        | .refused => .returned (-1) rules
        | .overflow => .overflow
        | .rule r m' => parseLoop n f' m' (r::rules)

/-- The file is `none` when it cannot be opened. Every turn but the last takes a
character off it, which bounds the turns. -/
def firewallParse (m : Scratch) : Option (List Char) → ParseResult
  | none => .returned (-1) []
  | some text => parseLoop inetAton (text.length+1) ⟨text,false⟩ m []

end Parser

section RulesFile

/-- A decimal number short enough for the port buffer. -/
structure Numeral where
  digits : List Char
  nonempty : digits ≠ []
  decimal : digits.all Char.isDigit
  fits : digits.length ≤ 7

def Numeral.value (n : Numeral) : ℕ := digitsValue n.digits

inductive Port
  | any
  | number (n : Numeral)

def Port.text : Port → List Char
  | .any => "*".toList
  | .number n => n.digits

def Port.code : Port → BitVec 16
  | .any => FW_PORT_ANY
  | .number n => BitVec.ofNat 16 n.value

/-- An address `inet_aton` accepts, short enough for its buffer. -/
structure Address (inetAton : List Char → Option (BitVec 32)) where
  text : List Char
  addr : BitVec 32
  word : IsWord text
  fits : text.length ≤ 19
  parses : inetAton text = some addr

abbrev Gap : Type := {g : List Char // g ≠ [] ∧ IsBlank g}

inductive ConnectAction
  | allow | deny
  deriving DecidableEq

def ConnectAction.type : ConnectAction → FwType
  | .allow => .connectAllow
  | .deny => .connectDeny

def ConnectAction.keyword : ConnectAction → List Char
  | .allow => STR_ALLOW_CONNECT
  | .deny => STR_DENY_CONNECT

variable (inetAton : List Char → Option (BitVec 32))

inductive Line
  | comment (text : List Char) (h : '\n' ∉ text)
  | blank
  | bind (before : Gap) (port : Port) (trail : {g : List Char // IsBlank g})
  | connect (action : ConnectAction) (before : Gap) (port : Port) (beforeIp : Gap)
      (ip : Address inetAton) (beforeMask : Gap) (mask : Address inetAton)
      (trail : {g : List Char // IsBlank g})

variable {inetAton}

def Line.text : Line inetAton → List Char
  | .comment text _ => STR_COMMENT ++ text
  | .blank => []
  | .bind g port trail => STR_ALLOW_BIND ++ (spacedText [(g.1,port.text)] ++ trail.1)
  | .connect action g port g' ip g'' mask trail =>
    action.keyword ++ (spacedText [(g.1,port.text),(g'.1,ip.text),(g''.1,mask.text)] ++ trail.1)

/-- The lines in order; the last may lack its line end. -/
def fileText : List (Line inetAton) → Bool → List Char
  | [], _ => []
  | [l], false => l.text
  | l::ls, ended => l.text ++ '\n'::fileText ls ended

def Line.rule : Line inetAton → Option FwRule
  | .bind _ port _ => some { type := .bindAllow, port := port.code }
  | .connect action _ port _ ip _ mask _ =>
    some { type := action.type, port := port.code, ip := ip.addr, mask := mask.addr }
  | _ => none

def rulesOf (lines : List (Line inetAton)) : List FwRule := lines.filterMap Line.rule

def Line.Names (port : BitVec 16) : Line inetAton → Prop
  | .bind _ .any _ => True
  | .bind _ (.number n) _ => n.value = port.toNat
  | _ => False

instance (port : BitVec 16) : (l : Line inetAton) → Decidable (l.Names port)
  | .bind _ .any _ => isTrue trivial
  | .bind _ (.number n) _ => inferInstanceAs (Decidable (n.value = port.toNat))
  | .comment _ _ => isFalse id
  | .blank => isFalse id
  | .connect _ _ _ _ _ _ _ _ => isFalse id

/-- What a connect rule does with a connection its two tests, as coded, cover. -/
def Line.action (port : BitVec 16) (ip : BitVec 32) : Line inetAton → Option ConnectAction
  | .connect action _ p _ a _ m _ =>
    if connectApplies { type := action.type, port := p.code, ip := a.addr, mask := m.addr }
      port ip then some action else none
  | _ => none

def lastAllows (lines : List (Line inetAton)) (port : BitVec 16) (ip : BitVec 32) : Bool :=
  (lines.filterMap (Line.action port ip)).getLast? == some .allow

/-- The decisions after parsing are the ones the file states. -/
def FollowsFile (m : Scratch) (lines : List (Line inetAton)) (ended : Bool)
    (port : BitVec 16) (ip : BitVec 32) : Prop :=
  ∃ rules, firewallParse inetAton m (some (fileText lines ended)) = .returned 0 rules ∧
    firewallCheckConnect rules port ip = lastAllows lines port ip ∧
    (firewallCheckBind rules port ↔ ∃ l ∈ lines, l.Names port)

/-- The line is a bind rule whose number, cut to sixteen bits, is the wildcard or
the port. -/
def Line.Collides (port : BitVec 16) : Line inetAton → Prop
  | .bind _ (.number n) _ => n.value % 65536 = 0 ∨ n.value % 65536 = port.toNat
  | _ => False

instance (port : BitVec 16) : (l : Line inetAton) → Decidable (l.Collides port)
  | .bind _ .any _ => isFalse id
  | .bind _ (.number n) _ =>
    inferInstanceAs (Decidable (n.value % 65536 = 0 ∨ n.value % 65536 = port.toNat))
  | .comment _ _ => isFalse id
  | .blank => isFalse id
  | .connect _ _ _ _ _ _ _ _ => isFalse id

end RulesFile

section Parsing

variable {inetAton : List Char → Option (BitVec 32)} {tail : List Char}

theorem Port.isWord : (p : Port) → IsWord p.text
  | .any => by decide
  | .number n => isWord_of_digits n.nonempty n.decimal

theorem Port.fits : (p : Port) → p.text.length < 8
  | .any => by decide
  | .number n => Nat.lt_succ_of_le n.fits

theorem portOf_text : (p : Port) → portOf p.text = p.code
  | .any => rfl
  | .number n => by
    have hstar : n.digits ≠ "*".toList := by
      intro h
      have hd := n.decimal
      rw [h] at hd
      exact absurd hd (by decide)
    rw [Port.text,portOf,if_neg hstar,atoi_digits n.decimal,BitVec.ofInt_natCast]
    rfl

theorem spaced_bind (g : Gap) (port : Port) : Spaced [(g.1,port.text)] := by
  intro p hp
  obtain rfl := List.mem_singleton.mp hp
  exact ⟨g.2.1,g.2.2,port.isWord⟩

theorem spaced_connect (g g' g'' : Gap) (port : Port) (ip mask : Address inetAton) :
    Spaced [(g.1,port.text),(g'.1,ip.text),(g''.1,mask.text)] := by
  intro p hp
  simp only [List.mem_cons,List.not_mem_nil,or_false] at hp
  rcases hp with rfl | rfl | rfl
  · exact ⟨g.2.1,g.2.2,port.isWord⟩
  · exact ⟨g'.2.1,g'.2.2,ip.word⟩
  · exact ⟨g''.2.1,g''.2.2,mask.word⟩

theorem parseBind_spaced (g : Gap) (port : Port) (m : Scratch) (ht : tail.all isSpace) :
    parseBind m (spacedText [(g.1,port.text)] ++ tail) =
      .rule { type := .bindAllow, port := port.code } { m with port := port.text } := by
  have hscan := scanWords_spaced (spaced_bind g port) ht
  simp only [List.length_singleton,List.map_cons,List.map_nil] at hscan
  simp [parseBind,hscan,storeWord,port.fits,portOf_text]

theorem parseConnect_spaced (type : FwType) (g g' g'' : Gap) (port : Port)
    (ip mask : Address inetAton) (m : Scratch) (ht : tail.all isSpace) :
    parseConnect inetAton type m
        (spacedText [(g.1,port.text),(g'.1,ip.text),(g''.1,mask.text)] ++ tail) =
      .rule { type := type, port := port.code, ip := ip.addr, mask := mask.addr }
        ⟨port.text,ip.text,mask.text,mask.addr⟩ := by
  have hscan := scanWords_spaced (spaced_connect g g' g'' port ip mask) ht
  have hip := Nat.lt_succ_of_le ip.fits
  have hmask := Nat.lt_succ_of_le mask.fits
  simp only [List.length_cons,List.length_nil,List.map_cons,List.map_nil] at hscan
  simp [parseConnect,scanConnect,hscan,storeWord,port.fits,hip,hmask,callInetAton,ip.parses,
    mask.parses,portOf_text]

theorem cString_ruleText {keyword trail : List Char} {ws : List (List Char × List Char)}
    (hk : IsPlain keyword) (hs : Spaced ws) (hb : IsBlank trail) (ht : tail.all isSpace) :
    cString (keyword ++ (spacedText ws ++ trail) ++ tail) =
      keyword ++ (spacedText ws ++ (trail ++ tail)) := by
  have hrule : IsPlain (keyword ++ (spacedText ws ++ trail)) := hk.append (hs.plain.append hb.plain)
  have hnul : '\x00' ∉ keyword ++ (spacedText ws ++ trail) ++ tail := fun h =>
    (List.mem_append.mp h).elim hrule.2 (nul_notMem_of_all ht)
  rw [cString_eq_self hnul,List.append_assoc,List.append_assoc]

theorem ConnectAction.keyword_plain : (a : ConnectAction) → IsPlain a.keyword
  | .allow => by decide
  | .deny => by decide

theorem Line.newline_notMem (l : Line inetAton) : '\n' ∉ l.text := by
  cases l with
  | comment text h =>
    have hk : '\n' ∉ STR_COMMENT := by decide
    exact fun hc => (List.mem_append.mp hc).elim hk h
  | blank => exact List.not_mem_nil
  | bind g port trail =>
    have hk : IsPlain STR_ALLOW_BIND := by decide
    exact (hk.append ((spaced_bind g port).plain.append trail.2.plain)).1
  | connect action g port g' ip g'' mask trail =>
    have hs := spaced_connect g g' g'' port ip mask
    exact (action.keyword_plain.append (hs.plain.append trail.2.plain)).1

theorem keyword_ne_blank {keyword : List Char} (c : Char) (hc : keyword.head? = some c)
    (hne : c ≠ '\n') (s : List Char) : keyword ++ s ≠ "\n".toList := by
  rintro h
  have h0 : (keyword ++ s).head? = some c := by simp [List.head?_append,hc]
  rw [h] at h0
  exact hne (Option.some.inj h0).symm

theorem parseLine_bind (m : Scratch) (s : List Char) :
    parseLine inetAton m (STR_ALLOW_BIND ++ s) = parseBind m s := by
  have hcomment : STR_COMMENT.isPrefixOf (STR_ALLOW_BIND ++ s) = false := rfl
  have hstarts : STR_ALLOW_BIND.isPrefixOf (STR_ALLOW_BIND ++ s) = true := by simp
  rw [parseLine,hcomment,if_neg Bool.false_ne_true,
    if_neg (keyword_ne_blank 'a' rfl (by decide) s),if_pos hstarts,List.drop_left]

theorem parseLine_connect (action : ConnectAction) (m : Scratch) (s : List Char) :
    parseLine inetAton m (action.keyword ++ s) = parseConnect inetAton action.type m s := by
  cases action with
  | allow =>
    have hcomment : STR_COMMENT.isPrefixOf (STR_ALLOW_CONNECT ++ s) = false := rfl
    have hbind : STR_ALLOW_BIND.isPrefixOf (STR_ALLOW_CONNECT ++ s) = false := rfl
    have hstarts : STR_ALLOW_CONNECT.isPrefixOf (STR_ALLOW_CONNECT ++ s) = true := by simp
    rw [ConnectAction.keyword,parseLine,hcomment,if_neg Bool.false_ne_true,
      if_neg (keyword_ne_blank 'a' rfl (by decide) s),hbind,if_neg Bool.false_ne_true,
      if_pos hstarts,List.drop_left,ConnectAction.type]
  | deny =>
    have hcomment : STR_COMMENT.isPrefixOf (STR_DENY_CONNECT ++ s) = false := rfl
    have hbind : STR_ALLOW_BIND.isPrefixOf (STR_DENY_CONNECT ++ s) = false := rfl
    have hallow : STR_ALLOW_CONNECT.isPrefixOf (STR_DENY_CONNECT ++ s) = false := rfl
    have hstarts : STR_DENY_CONNECT.isPrefixOf (STR_DENY_CONNECT ++ s) = true := by simp
    rw [ConnectAction.keyword,parseLine,hcomment,if_neg Bool.false_ne_true,
      if_neg (keyword_ne_blank 'd' rfl (by decide) s),hbind,if_neg Bool.false_ne_true,
      hallow,if_neg Bool.false_ne_true,if_pos hstarts,List.drop_left,ConnectAction.type]

theorem parseLine_text (l : Line inetAton) (m : Scratch) (ht : tail = [] ∨ tail = ['\n'])
    (hne : l.text ++ tail ≠ []) :
    ∃ m', parseLine inetAton m (cString (l.text ++ tail)) =
      l.rule.elim .skipped (LineResult.rule · m') := by
  have hspace : tail.all isSpace := by
    rcases ht with rfl | rfl <;> decide
  have htrail {trail : List Char} (hb : IsBlank trail) : (trail ++ tail).all isSpace := by
    rw [List.all_append,hb.1,hspace]
    rfl
  cases l with
  | comment text h =>
    refine ⟨m,?_⟩
    simp [Line.text,STR_COMMENT,cString,parseLine,Line.rule]
  | blank =>
    rcases ht with rfl | rfl
    · exact absurd rfl hne
    · exact ⟨m,rfl⟩
  | bind g port trail =>
    refine ⟨{ m with port := port.text },?_⟩
    rw [Line.text,cString_ruleText (by decide) (spaced_bind g port) trail.2 hspace,
      parseLine_bind]
    exact parseBind_spaced g port m (htrail trail.2)
  | connect action g port g' ip g'' mask trail =>
    refine ⟨⟨port.text,ip.text,mask.text,mask.addr⟩,?_⟩
    rw [Line.text,cString_ruleText action.keyword_plain
      (spaced_connect g g' g'' port ip mask) trail.2 hspace,parseLine_connect]
    exact parseConnect_spaced action.type g g' g'' port ip mask m (htrail trail.2)

end Parsing

section Loop

variable {inetAton : List Char → Option (BitVec 32)} {n : ℕ}

theorem parseLoop_ends (f : Stream) (m : Scratch) (rules : List FwRule)
    (hn : f.rest.length < n) : parseLoop inetAton n f m rules ≠ .outOfFuel := by
  induction n generalizing f m rules with
  | zero => exact absurd hn (Nat.not_lt_zero _)
  | succ n ih =>
    rw [parseLoop]
    split_ifs
    · nofun
    · split
      · nofun
      · rename_i buf f' hread
        have hshrink := fgets_shrinks (by decide) hread
        split
        · exact ih f' m rules (by omega)
        · nofun
        · nofun
        · exact ih f' _ _ (by omega)

/-- The parser comes to an end on every file. -/
theorem firewallParse_ends (m : Scratch) :
    (file : Option (List Char)) → firewallParse inetAton m file ≠ .outOfFuel
  | none => nofun
  | some text => parseLoop_ends _ m [] (Nat.lt_succ_self text.length)

theorem parseLoop_line (l : Line inetAton) (hl : l.text.length ≤ 98) (rest : List Char)
    (m : Scratch) (rules : List FwRule) :
    ∃ m', parseLoop inetAton (n+1) ⟨l.text ++ '\n'::rest,false⟩ m rules =
      parseLoop inetAton n ⟨rest,false⟩ m' (l.rule.toList ++ rules) := by
  have hread := fgets_line (n := 100) rest l.newline_notMem (by omega)
  obtain ⟨m',hline⟩ := parseLine_text l m (Or.inr rfl) (by simp)
  cases hr : l.rule with
  | none =>
    rw [hr] at hline
    refine ⟨m,?_⟩
    simp [parseLoop,hread,hline]
  | some r =>
    rw [hr] at hline
    refine ⟨m',?_⟩
    simp [parseLoop,hread,hline]

theorem parseLoop_last (l : Line inetAton) (hl : l.text.length ≤ 98) (hne : l.text ≠ [])
    (m : Scratch) (rules : List FwRule) :
    parseLoop inetAton (n+2) ⟨l.text,false⟩ m rules = .returned 0 (l.rule.toList ++ rules) := by
  have hread := fgets_last (n := 100) l.newline_notMem hne (by omega)
  obtain ⟨m',hline⟩ := parseLine_text l m (Or.inl rfl) (by simpa using hne)
  rw [List.append_nil] at hline
  cases hr : l.rule with
  | none =>
    rw [hr] at hline
    simp [parseLoop,hread,hline]
  | some r =>
    rw [hr] at hline
    simp [parseLoop,hread,hline]

theorem parseLoop_end (m : Scratch) (rules : List FwRule) :
    parseLoop inetAton (n+1) ⟨[],false⟩ m rules = .returned 0 rules := by
  simp [parseLoop,fgets_nil]

theorem Line.rule_of_text_nil {l : Line inetAton} (h : l.text = []) : l.rule = none := by
  cases l with
  | comment text _ => exact absurd (List.append_eq_nil_iff.mp h).1 (by decide)
  | blank => rfl
  | bind => exact absurd (List.append_eq_nil_iff.mp h).1 (by decide)
  | connect action =>
    cases action <;> exact absurd (List.append_eq_nil_iff.mp h).1 (by decide)

theorem fileText_cons {l : Line inetAton} {ls : List (Line inetAton)} {ended : Bool}
    (h : ¬(ls = [] ∧ ended = false)) :
    fileText (l::ls) ended = l.text ++ '\n'::fileText ls ended := by
  cases ls with
  | nil =>
    cases ended with
    | false => exact absurd ⟨rfl,rfl⟩ h
    | true => rfl
  | cons => rfl

/-- The loop takes a whole file and leaves its rules, the last one first. -/
theorem parseLoop_fileText (lines : List (Line inetAton)) (ended : Bool)
    (hlen : ∀ l ∈ lines, l.text.length ≤ 98) (m : Scratch) (rules : List FwRule)
    (hn : (fileText lines ended).length < n) :
    parseLoop inetAton n ⟨fileText lines ended,false⟩ m rules =
      .returned 0 ((rulesOf lines).reverse ++ rules) := by
  induction lines generalizing n m rules with
  | nil =>
    obtain ⟨k,rfl⟩ := Nat.exists_eq_add_one.mpr (Nat.lt_of_le_of_lt (Nat.zero_le _) hn)
    exact parseLoop_end m rules
  | cons l ls ih =>
    have hl := hlen l List.mem_cons_self
    have hrules : (rulesOf (l::ls)).reverse ++ rules =
        (rulesOf ls).reverse ++ (l.rule.toList ++ rules) := by
      cases hr : l.rule <;> simp [rulesOf,hr]
    by_cases hlast : ls = [] ∧ ended = false
    · obtain ⟨rfl,rfl⟩ := hlast
      have htext : fileText [l] false = l.text := rfl
      rw [htext] at hn ⊢
      rw [hrules]
      by_cases hne : l.text = []
      · obtain ⟨k,rfl⟩ := Nat.exists_eq_add_one.mpr (Nat.lt_of_le_of_lt (Nat.zero_le _) hn)
        rw [hne,Line.rule_of_text_nil hne]
        exact parseLoop_end m rules
      · have hpos := List.length_pos_of_ne_nil hne
        obtain ⟨k,rfl⟩ : ∃ k, n = k+2 := ⟨n-2,by omega⟩
        exact parseLoop_last l hl hne m rules
    · rw [fileText_cons hlast] at hn ⊢
      obtain ⟨k,rfl⟩ := Nat.exists_eq_add_one.mpr (Nat.lt_of_le_of_lt (Nat.zero_le _) hn)
      obtain ⟨m',hturn⟩ := parseLoop_line l hl (fileText ls ended) (n := k) m rules
      rw [hturn,hrules]
      refine ih (fun x hx => hlen x (List.mem_cons_of_mem _ hx)) m' _ ?_
      simp only [List.length_append,List.length_cons] at hn
      omega

theorem firewallParse_fileText (lines : List (Line inetAton)) (ended : Bool)
    (hlen : ∀ l ∈ lines, l.text.length ≤ 98) (m : Scratch) :
    firewallParse inetAton m (some (fileText lines ended)) =
      .returned 0 (rulesOf lines).reverse := by
  have h := parseLoop_fileText lines ended hlen m [] (Nat.lt_succ_self _)
  rwa [List.append_nil] at h

end Loop

section Decisions

variable {inetAton : List Char → Option (BitVec 32)} {port : BitVec 16} {ip : BitVec 32}

theorem firewallCheckBind_iff (rules : List FwRule) :
    firewallCheckBind rules port ↔
      ∃ r ∈ rules, r.type = .bindAllow ∧ (r.port = FW_PORT_ANY ∨ r.port = port) := by
  induction rules with
  | nil => simp [firewallCheckBind]
  | cons p ps ih =>
    rw [firewallCheckBind,List.exists_mem_cons_iff]
    by_cases ht : p.type = .bindAllow
    · by_cases hany : p.port = FW_PORT_ANY
      · simp [ht,hany]
      · by_cases hport : p.port = port
        · simp [ht,hport]
        · simp [ht,hany,hport,ih]
    · simp [ht,ih]

def ruleAction (port : BitVec 16) (ip : BitVec 32) (r : FwRule) : Option ConnectAction :=
  if connectApplies r port ip then
    match r.type with
    | .connectAllow => some .allow
    | .connectDeny => some .deny
    | .bindAllow => none
  else none

/-- The scan answers with the first rule that covers the connection. -/
theorem firewallCheckConnect_eq (rules : List FwRule) :
    firewallCheckConnect rules port ip =
      ((rules.filterMap (ruleAction port ip)).head? == some .allow) := by
  induction rules with
  | nil => rfl
  | cons p ps ih =>
    rw [firewallCheckConnect,List.filterMap_cons]
    by_cases happ : connectApplies p port ip
    · cases ht : p.type <;> simp [ruleAction,happ,ht,ih]
    · simp [ruleAction,happ,ih]

theorem ruleAction_rule (l : Line inetAton) :
    l.rule.bind (ruleAction port ip) = l.action port ip := by
  cases l with
  | connect action => cases action <;> rfl
  | bind => simp [Line.rule,Line.action,ruleAction]
  | _ => rfl

theorem firewallCheckConnect_rulesOf (lines : List (Line inetAton)) :
    firewallCheckConnect (rulesOf lines).reverse port ip = lastAllows lines port ip := by
  have hact : (rulesOf lines).filterMap (ruleAction port ip) =
      lines.filterMap (Line.action port ip) := by
    rw [rulesOf,List.filterMap_filterMap]
    exact congrArg (List.filterMap · lines) (funext ruleAction_rule)
  rw [firewallCheckConnect_eq,List.filterMap_reverse,hact,List.head?_reverse,lastAllows]

theorem Line.opens_iff (l : Line inetAton) :
    (∃ r, l.rule = some r ∧ r.type = .bindAllow ∧ (r.port = FW_PORT_ANY ∨ r.port = port)) ↔
      l.Names port ∨ l.Collides port := by
  cases l with
  | comment => simp [Line.rule,Line.Names,Line.Collides]
  | blank => simp [Line.rule,Line.Names,Line.Collides]
  | connect action => cases action <;>
      simp [Line.rule,Line.Names,Line.Collides,ConnectAction.type]
  | bind g p trail =>
    cases p with
    | any => simp [Line.rule,Line.Names,Port.code]
    | number n =>
      have hport := port.isLt
      have hany : FW_PORT_ANY.toNat = 0 := rfl
      simp only [Line.rule,Line.Names,Line.Collides,Port.code,Option.some.injEq,
        exists_eq_left',true_and,← BitVec.toNat_inj,BitVec.toNat_ofNat,hany]
      omega

theorem firewallCheckBind_rulesOf (lines : List (Line inetAton)) :
    firewallCheckBind (rulesOf lines).reverse port ↔
      ∃ l ∈ lines, l.Names port ∨ l.Collides port := by
  simp only [firewallCheckBind_iff,List.mem_reverse,rulesOf,List.mem_filterMap,
    ← Line.opens_iff]
  constructor
  · rintro ⟨r,⟨l,hl,hr⟩,hopen⟩
    exact ⟨l,hl,r,hr,hopen⟩
  · rintro ⟨l,hl,r,hr,hopen⟩
    exact ⟨r,⟨l,hl,hr⟩,hopen⟩

/-- After a file of comments, blank lines and complete rules the last connect
rule that covers a connection decides it. Bind requests follow the file exactly
when every bind rule whose number collides with the port stands beside one that
does name it. -/
theorem followsFile_iff (lines : List (Line inetAton)) (ended : Bool)
    (hlen : ∀ l ∈ lines, l.text.length ≤ 98) (m : Scratch) (port : BitVec 16)
    (ip : BitVec 32) :
    FollowsFile m lines ended port ip ↔
      ∀ l ∈ lines, l.Collides port → ∃ l' ∈ lines, l'.Names port := by
  have hparse := firewallParse_fileText lines ended hlen m
  constructor
  · rintro ⟨rules,hrules,-,hbind⟩ l hl hc
    obtain rfl : (rulesOf lines).reverse = rules := by
      rw [hparse] at hrules
      exact (ParseResult.returned.inj hrules).2
    exact hbind.mp ((firewallCheckBind_rulesOf lines).mpr ⟨l,hl,Or.inr hc⟩)
  · intro h
    refine ⟨_,hparse,firewallCheckConnect_rulesOf lines,?_⟩
    rw [firewallCheckBind_rulesOf]
    constructor
    · rintro ⟨l,hl,hn | hc⟩
      · exact ⟨l,hl,hn⟩
      · exact h l hl hc
    · rintro ⟨l,hl,hn⟩
      exact ⟨l,hl,Or.inl hn⟩

end Decisions

section ShippedRules

/-- A decimal octet. A leading zero would make it octal. -/
def octet (cs : List Char) : Option ℕ :=
  if cs ≠ [] ∧ cs.all Char.isDigit ∧ (cs.head? = some '0' → cs.length = 1) ∧ digitsValue cs < 256
  then some (digitsValue cs) else none

/-- `inet_aton` on four decimal octets, the first in the lowest byte. -/
def dottedQuad (text : List Char) : Option (BitVec 32) :=
  match (text.splitOn '.').map octet with
  | [some a,some b,some c,some d] =>
    some (BitVec.ofNat 32 (a+0x100*b+0x10000*c+0x1000000*d))
  | _ => none

def oneSpace : Gap := ⟨[' '],by decide,by decide⟩

def noTrail : {g : List Char // IsBlank g} := ⟨[],by decide⟩

def lowPort : Numeral := ⟨"1234".toList,by decide,by decide,by decide⟩

def sshPort : Numeral := ⟨"22".toList,by decide,by decide,by decide⟩

def campus : Address dottedQuad :=
  ⟨"171.0.0.0".toList,0xab,by decide,by decide,by decide⟩

def campusMask : Address dottedQuad :=
  ⟨"255.0.0.0".toList,0xff,by decide,by decide,by decide⟩

def zeroAddress : Address dottedQuad :=
  ⟨"0.0.0.0".toList,0,by decide,by decide,by decide⟩

/-- The rules file of the repository, up to its trailing comments. -/
def ufwRules : List (Line dottedQuad) :=
  [.bind oneSpace (.number lowPort) noTrail,
    .connect .allow oneSpace .any oneSpace campus oneSpace campusMask noTrail,
    .connect .deny oneSpace (.number sshPort) oneSpace zeroAddress oneSpace zeroAddress noTrail,
    .blank,.comment " default rules:".toList (by decide)]

def emptyScratch : Scratch := ⟨[],[],[],0⟩

theorem followsFile_iff_ufwRules :
    ufwRules.map Line.text = ["allow bind 1234".toList,
        "allow connect * 171.0.0.0 255.0.0.0".toList,"deny connect 22 0.0.0.0 0.0.0.0".toList,
        [],"# default rules:".toList] ∧
      FollowsFile emptyScratch ufwRules true 4321 0x090342ab :=
  ⟨by decide +kernel,(followsFile_iff ufwRules true (by decide) emptyScratch 4321 0x090342ab).mpr
    (by decide)⟩

def zeroBind : List (Line dottedQuad) :=
  [.bind oneSpace (.number ⟨"0".toList,by decide,by decide,by decide⟩) noTrail]

/-- A rule for port zero is read as the wildcard and opens port 80. -/
theorem zeroBind_opens :
    fileText zeroBind true = "allow bind 0\n".toList ∧
      (∀ l ∈ zeroBind, l.text.length ≤ 98) ∧ ¬FollowsFile emptyScratch zeroBind true 80 0 := by
  refine ⟨by decide,by decide,?_⟩
  rintro ⟨rules,hrules,-,hbind⟩
  have hparse : firewallParse dottedQuad emptyScratch (some (fileText zeroBind true)) =
      .returned 0 [{ type := .bindAllow, port := 0 }] := by rfl
  rw [hparse] at hrules
  obtain rfl := (ParseResult.returned.inj hrules).2
  have hnamed := hbind.mp (by decide)
  exact absurd hnamed (by decide)

end ShippedRules

end Firewall
end VmplApps
