import Mathlib.Data.List.TakeWhile
import Mathlib.Tactic

/-! Text as the C library reads it: lines of bounded length off a stream, words
between blanks, decimal and hexadecimal numerals. -/
namespace VmplApps
namespace CText

def isSpace (c : Char) : Bool :=
  c == ' ' || c == '\t' || c == '\n' || c == '\x0b' || c == '\x0c' || c == '\r'

/-- The string a buffer holds ends before its first NUL. -/
def cString (buf : List Char) : List Char := buf.takeWhile (· != '\x00')

/-- What is left of an open file, and its end-of-file flag. -/
structure Stream where
  rest : List Char
  eof : Bool := false
  deriving DecidableEq, Repr

/-- Read at most `n` characters and stop after a line end. The flag is raised
only by a read that finds nothing left. -/
def takeLine : ℕ → List Char → List Char × Stream
  | 0, cs => ([],⟨cs,false⟩)
  | _+1, [] => ([],⟨[],true⟩)
  | n+1, c::cs =>
    if c = '\n' then ([c],⟨cs,false⟩)
    else (c::(takeLine n cs).1,(takeLine n cs).2)

/-- `fgets` with a buffer of `size` bytes; `none` is its null pointer. -/
def fgets (size : ℕ) (f : Stream) : Option (List Char) × Stream :=
  let r := takeLine (size-1) f.rest
  (if r.1 = [] ∧ r.2.eof then none else some r.1,r.2)

/-- One `%s`: skip the blanks, then read up to the next one. -/
def scanWord (s : List Char) : Option (List Char × List Char) :=
  let t := s.dropWhile isSpace
  if t = [] then none
  else some (t.takeWhile (fun c => !isSpace c),t.dropWhile (fun c => !isSpace c))

/-- `n` conversions `%s` in a row; the first that finds nothing ends the scan. -/
def scanWords : ℕ → List Char → List (List Char)
  | 0, _ => []
  | n+1, s => match scanWord s with
    | none => []
    | some (w,rest) => w::scanWords n rest

def digitsValue (ds : List Char) : ℕ := ds.foldl (fun v c => 10*v+(c.toNat - '0'.toNat)) 0

def atoi (s : List Char) : ℤ :=
  match s.dropWhile isSpace with
  | '-'::t => -(digitsValue (t.takeWhile Char.isDigit) : ℤ)
  | '+'::t => digitsValue (t.takeWhile Char.isDigit)
  | t => digitsValue (t.takeWhile Char.isDigit)

def hexDigit (c : Char) : Option ℕ :=
  if '0' ≤ c ∧ c ≤ '9' then some (c.toNat - '0'.toNat)
  else if 'a' ≤ c ∧ c ≤ 'f' then some (c.toNat - 'a'.toNat+10)
  else if 'A' ≤ c ∧ c ≤ 'F' then some (c.toNat - 'A'.toNat+10)
  else none

def isHex (c : Char) : Bool := (hexDigit c).isSome

def hexValue (ds : List Char) : ℕ := ds.foldl (fun v c => 16*v+(hexDigit c).getD 0) 0

/-- One `%lx`: blanks, a sign, a prefix and the digits. A number that is too large
becomes the largest. -/
def scanHex (s : List Char) : Option (BitVec 64 × List Char) :=
  let s := s.dropWhile isSpace
  let negative := s.head? == some '-'
  let s := if negative ∨ s.head? = some '+' then s.tail else s
  let s := if s.take 2 = ['0','x'] ∨ s.take 2 = ['0','X'] then s.drop 2 else s
  let v := hexValue (s.takeWhile isHex)
  if s.takeWhile isHex = [] then none
  else some (if 2^64 ≤ v then -1 else if negative then -BitVec.ofNat 64 v else BitVec.ofNat 64 v,
    s.dropWhile isHex)

def skipWords : ℕ → List Char → List Char
  | 0, s => s
  | n+1, s => match scanWord s with
    | none => []
    | some (_,rest) => skipWords n rest

/-- A format that `printf` can follow without an argument: a percent sign is doubled. -/
def formatDefined : List Char → Bool
  | [] => true
  | ['%'] => false
  | '%'::c::cs => c == '%' && formatDefined cs
  | _::cs => formatDefined cs

def linesOf : List Char → List (List Char)
  | [] => []
  | c::cs =>
    if c = '\n' then []::linesOf cs
    else match linesOf cs with
      | [] => [[c]]
      | l::ls => (c::l)::ls

section Stops
variable {p : Char → Bool} {s : List Char} {c : Char}

theorem takeWhile_stop (hs : ∀ x ∈ s, p x = true) (hc : p c = false) (rest : List Char) :
    (s ++ c::rest).takeWhile p = s := by
  rw [List.takeWhile_append_of_pos hs,List.takeWhile_cons_of_neg (by simp [hc]),List.append_nil]

theorem dropWhile_stop (hs : ∀ x ∈ s, p x = true) (hc : p c = false) (rest : List Char) :
    (s ++ c::rest).dropWhile p = c::rest := by
  rw [List.dropWhile_append_of_pos hs,List.dropWhile_cons_of_neg (by simp [hc])]

end Stops

section Lines

variable {n : ℕ} {text : List Char}

theorem linesOf_line (rest : List Char) (ht : '\n' ∉ text) :
    linesOf (text ++ '\n'::rest) = text::linesOf rest := by
  induction text with
  | nil => rfl
  | cons c cs ih =>
    have hc : c ≠ '\n' := fun h => ht (h ▸ List.mem_cons_self)
    rw [List.cons_append,linesOf,if_neg hc,ih fun h => ht (List.mem_cons_of_mem _ h)]

theorem linesOf_last (ht : '\n' ∉ text) (hne : text ≠ []) : linesOf text = [text] := by
  induction text with
  | nil => exact absurd rfl hne
  | cons c cs ih =>
    have hc : c ≠ '\n' := fun h => ht (h ▸ List.mem_cons_self)
    rw [linesOf,if_neg hc]
    by_cases hcs : cs = []
    · rw [hcs]
      rfl
    · rw [ih (fun h => ht (List.mem_cons_of_mem _ h)) hcs]

/-- A text is empty, one line without its end, or a line and more text. -/
theorem text_cases (text : List Char) : text = [] ∨ ('\n' ∉ text ∧ text ≠ []) ∨
    ∃ l rest, '\n' ∉ l ∧ text = l ++ '\n'::rest := by
  by_cases hnl : '\n' ∈ text
  · obtain ⟨l,rest,htext,hl⟩ := List.eq_append_cons_of_mem hnl
    exact .inr (.inr ⟨l,rest,hl,htext⟩)
  · by_cases hne : text = []
    · exact .inl hne
    · exact .inr (.inl ⟨hnl,hne⟩)

theorem takeLine_append (k : ℕ) (rest : List Char) (ht : '\n' ∉ text) :
    takeLine (text.length+(k+1)) (text ++ rest) =
      (text ++ (takeLine (k+1) rest).1,(takeLine (k+1) rest).2) := by
  induction text with
  | nil => simp
  | cons c cs ih =>
    have hc : c ≠ '\n' := fun h => ht (h ▸ List.mem_cons_self)
    have hcs := ih fun h => ht (List.mem_cons_of_mem _ h)
    rw [List.length_cons,Nat.add_right_comm,List.cons_append,takeLine,if_neg hc,hcs]
    rfl

theorem fgets_line (rest : List Char) (ht : '\n' ∉ text) (hn : text.length+1 < n) :
    fgets n ⟨text ++ '\n'::rest,false⟩ = (some (text ++ ['\n']),⟨rest,false⟩) := by
  obtain ⟨k,rfl⟩ : ∃ k, n = text.length+(k+1)+1 := ⟨n-text.length-2,by omega⟩
  rw [fgets,Nat.add_sub_cancel,takeLine_append k _ ht]
  simp [takeLine]

theorem fgets_last (ht : '\n' ∉ text) (hne : text ≠ []) (hn : text.length+1 < n) :
    fgets n ⟨text,false⟩ = (some text,⟨[],true⟩) := by
  obtain ⟨k,rfl⟩ : ∃ k, n = text.length+(k+1)+1 := ⟨n-text.length-2,by omega⟩
  have hall := takeLine_append k [] ht
  rw [List.append_nil] at hall
  simp [fgets,hall,takeLine,hne]

theorem fgets_nil (hn : 1 < n) : fgets n ⟨[],false⟩ = (none,⟨[],true⟩) := by
  obtain ⟨k,rfl⟩ : ∃ k, n = k+2 := ⟨n-2,by omega⟩
  simp [fgets,takeLine]

theorem takeLine_long (rest : List Char) (ht : '\n' ∉ text) (hn : n ≤ text.length) :
    takeLine n (text ++ rest) = (text.take n,⟨text.drop n ++ rest,false⟩) := by
  induction n generalizing text with
  | zero => simp [takeLine]
  | succ n ih =>
    cases text with
    | nil => exact absurd hn (Nat.not_succ_le_zero n)
    | cons c cs =>
      have hc : c ≠ '\n' := fun h => ht (h ▸ List.mem_cons_self)
      have hcs := ih (fun h => ht (List.mem_cons_of_mem _ h)) (Nat.le_of_succ_le_succ hn)
      rw [List.cons_append,takeLine,if_neg hc,hcs]
      rfl

theorem fgets_long (rest : List Char) (ht : '\n' ∉ text) (hn : n ≤ text.length) :
    fgets (n+1) ⟨text ++ rest,false⟩ = (some (text.take n),⟨text.drop n ++ rest,false⟩) := by
  rw [fgets,Nat.add_sub_cancel,takeLine_long rest ht hn]
  simp

theorem takeLine_length (n : ℕ) (cs : List Char) :
    (takeLine n cs).1.length + (takeLine n cs).2.rest.length = cs.length := by
  induction n generalizing cs with
  | zero => simp [takeLine]
  | succ n ih =>
    cases cs with
    | nil => rfl
    | cons c cs =>
      by_cases hc : c = '\n'
      · simp [takeLine,hc,Nat.add_comm]
      · rw [takeLine,if_neg hc,List.length_cons,List.length_cons,← ih cs]
        exact Nat.add_right_comm _ _ _

/-- A read that returns a string has taken something off the stream. -/
theorem fgets_shrinks (hn : 1 < n) {f f' : Stream} {buf : List Char}
    (h : fgets n f = (some buf,f')) : f'.rest.length < f.rest.length := by
  obtain ⟨k,rfl⟩ : ∃ k, n = k+2 := ⟨n-2,by omega⟩
  have hlen := takeLine_length (k+1) f.rest
  obtain ⟨hbuf,rfl⟩ := Prod.mk.inj h
  rw [show k+2-1 = k+1 from rfl] at hbuf ⊢
  cases hrest : f.rest with
  | nil => simp [hrest,takeLine] at hbuf
  | cons c cs =>
    have hpos : 0 < (takeLine (k+1) (c::cs)).1.length := by
      rw [takeLine]
      split_ifs <;> exact Nat.succ_pos _
    rw [hrest] at hlen
    omega

theorem cString_eq_self (h : '\x00' ∉ text) : cString text = text := by
  refine List.takeWhile_eq_self_iff.mpr fun c hc => ?_
  simpa using fun h0 : c = '\x00' => h (h0 ▸ hc)

theorem cString_take (n : ℕ) (text : List Char) :
    cString (text.take n) = (cString text).take n := by
  induction text generalizing n with
  | nil => simp [cString]
  | cons c cs ih =>
    cases n with
    | zero => rfl
    | succ n =>
      have hcs := ih n
      simp only [cString] at hcs ⊢
      rw [List.take_succ_cons,List.takeWhile_cons,List.takeWhile_cons,hcs]
      split
      · rw [List.take_succ_cons]
      · rw [List.take_nil]

end Lines

section WordsOfALine

def IsBlank (g : List Char) : Prop := g.all isSpace ∧ '\n' ∉ g

def IsWord (w : List Char) : Prop := w ≠ [] ∧ w.all (fun c => !isSpace c) ∧ '\x00' ∉ w

/-- No character ends the line or the string. -/
def IsPlain (s : List Char) : Prop := '\n' ∉ s ∧ '\x00' ∉ s

instance (g : List Char) : Decidable (IsBlank g) :=
  inferInstanceAs (Decidable (g.all isSpace ∧ '\n' ∉ g))

instance (w : List Char) : Decidable (IsWord w) :=
  inferInstanceAs (Decidable (w ≠ [] ∧ w.all (fun c => !isSpace c) ∧ '\x00' ∉ w))

instance (s : List Char) : Decidable (IsPlain s) :=
  inferInstanceAs (Decidable ('\n' ∉ s ∧ '\x00' ∉ s))

def spacedText (ws : List (List Char × List Char)) : List Char := ws.flatMap fun p => p.1 ++ p.2

def Spaced (ws : List (List Char × List Char)) : Prop :=
  ∀ p ∈ ws, p.1 ≠ [] ∧ IsBlank p.1 ∧ IsWord p.2

variable {g w rest tail : List Char} {ws : List (List Char × List Char)}

theorem scanWord_append (hg : g.all isSpace) (hw : IsWord w)
    (hr : rest.takeWhile (fun c => !isSpace c) = []) :
    scanWord (g ++ (w ++ rest)) = some (w,rest) := by
  have hsolid := List.all_eq_true.mp hw.2.1
  have hskip : (g ++ (w ++ rest)).dropWhile isSpace = w ++ rest := by
    rw [List.dropWhile_append_of_pos (List.all_eq_true.mp hg)]
    obtain ⟨c,cs,rfl⟩ := List.exists_cons_of_ne_nil hw.1
    have hc : isSpace c = false := by simpa using hsolid c List.mem_cons_self
    simp [hc]
  have hdrop : rest.dropWhile (fun c => !isSpace c) = rest := by
    have h := List.takeWhile_append_dropWhile (p := fun c => !isSpace c) (l := rest)
    rwa [hr,List.nil_append] at h
  rw [scanWord,hskip,if_neg (by simp [hw.1]),List.takeWhile_append_of_pos hsolid,hr,
    List.append_nil,List.dropWhile_append_of_pos hsolid,hdrop]

theorem takeWhile_blank (hg : g.all isSpace) (hne : g ≠ []) :
    (g ++ rest).takeWhile (fun c => !isSpace c) = [] := by
  obtain ⟨c,cs,rfl⟩ := List.exists_cons_of_ne_nil hne
  simp [List.all_eq_true.mp hg c List.mem_cons_self]

theorem takeWhile_spaced (hs : Spaced ws) (ht : tail.all isSpace) :
    (spacedText ws ++ tail).takeWhile (fun c => !isSpace c) = [] := by
  cases ws with
  | nil =>
    by_cases hne : tail = []
    · rw [hne]
      rfl
    · rw [spacedText,List.flatMap_nil,List.nil_append,← List.append_nil tail]
      exact takeWhile_blank ht hne
  | cons p ws =>
    obtain ⟨hne,hb,-⟩ := hs p List.mem_cons_self
    rw [spacedText,List.flatMap_cons,List.append_assoc,List.append_assoc]
    exact takeWhile_blank hb.1 hne

theorem scanWords_spaced (hs : Spaced ws) (ht : tail.all isSpace) :
    scanWords ws.length (spacedText ws ++ tail) = ws.map Prod.snd := by
  induction ws with
  | nil => rfl
  | cons p ws ih =>
    obtain ⟨-,hb,hw⟩ := hs p List.mem_cons_self
    have hws : Spaced ws := fun q hq => hs q (List.mem_cons_of_mem _ hq)
    have hscan : scanWord (spacedText (p::ws) ++ tail) = some (p.2,spacedText ws ++ tail) := by
      rw [spacedText,List.flatMap_cons,List.append_assoc,List.append_assoc]
      exact scanWord_append hb.1 hw (takeWhile_spaced hws ht)
    simp [scanWords,hscan,ih hws]

theorem scanWords_length_le (n : ℕ) (s : List Char) : (scanWords n s).length ≤ n := by
  induction n generalizing s with
  | zero => rfl
  | succ n ih =>
    rw [scanWords]
    split
    · exact Nat.zero_le _
    · exact Nat.succ_le_succ (ih _)

theorem scanWords_take {n k : ℕ} (h : n ≤ k) (s : List Char) :
    scanWords n s = (scanWords k s).take n := by
  induction n generalizing k s with
  | zero => simp [scanWords]
  | succ n ih =>
    obtain ⟨k,rfl⟩ : ∃ j, k = j+1 := ⟨k-1,by omega⟩
    rw [scanWords,scanWords]
    split
    · rfl
    · rw [List.take_succ_cons,← ih (by omega)]

theorem scanWord_tail (ht : tail.all isSpace) (s : List Char) :
    scanWord (s ++ tail) = (scanWord s).map fun x => (x.1,x.2 ++ tail) := by
  have hspace := List.all_eq_true.mp ht
  have hskip : tail.dropWhile isSpace = [] := List.dropWhile_eq_nil_iff.mpr hspace
  have hword : tail.takeWhile (fun c => !isSpace c) = [] := by
    cases tail with
    | nil => rfl
    | cons c cs => simp [hspace c List.mem_cons_self]
  have hrest : tail.dropWhile (fun c => !isSpace c) = tail := by
    have h := List.takeWhile_append_dropWhile (p := fun c => !isSpace c) (l := tail)
    rwa [hword,List.nil_append] at h
  have hfirst (t : List Char) : (t ++ tail).takeWhile (fun c => !isSpace c) =
      t.takeWhile (fun c => !isSpace c) := by
    rw [List.takeWhile_append,hword,List.append_nil]
    split_ifs with hlen
    · exact ((List.takeWhile_prefix _).eq_of_length hlen).symm
    · rfl
  have hsecond (t : List Char) : (t ++ tail).dropWhile (fun c => !isSpace c) =
      t.dropWhile (fun c => !isSpace c) ++ tail := by
    rw [List.dropWhile_append,hrest]
    split_ifs with hempty
    · rw [List.isEmpty_iff.mp hempty,List.nil_append]
    · rfl
  rw [scanWord,scanWord,List.dropWhile_append,hskip]
  cases hs : s.dropWhile isSpace with
  | nil => rfl
  | cons c cs =>
    simp only [List.isEmpty_cons,Bool.false_eq_true,if_false,hfirst,hsecond,reduceCtorEq,
      Option.map_some,List.append_eq_nil_iff,false_and]

theorem scanWords_tail (ht : tail.all isSpace) (n : ℕ) (s : List Char) :
    scanWords n (s ++ tail) = scanWords n s := by
  induction n generalizing s with
  | zero => rfl
  | succ n ih =>
    rw [scanWords,scanWords,scanWord_tail ht]
    cases scanWord s with
    | none => rfl
    | some x => exact congrArg (x.1 :: ·) (ih x.2)

theorem scanWords_head (n : ℕ) (s : List Char) :
    (scanWords (n+1) s)[0]? = (scanWord s).map Prod.fst := by
  rw [scanWords]
  cases scanWord s with
  | none => rfl
  | some x => rfl

theorem scanWord_cut {s : List Char} {n : ℕ} (h : (scanWord (s.take n)).map Prod.fst = some w) :
    ∃ v, (scanWord s).map Prod.fst = some v ∧ w <+: v := by
  have hs : s = s.take n ++ s.drop n := (List.take_append_drop n s).symm
  generalize s.take n = a at h hs
  generalize s.drop n = b at hs
  subst hs
  rw [scanWord] at h ⊢
  by_cases hempty : a.dropWhile isSpace = []
  · rw [if_pos hempty] at h
    cases h
  · rw [if_neg hempty] at h
    have hskip : (a ++ b).dropWhile isSpace = a.dropWhile isSpace ++ b := by
      rw [List.dropWhile_append,if_neg (by simpa using hempty)]
    rw [hskip,if_neg (by simp [hempty])]
    refine ⟨_,rfl,?_⟩
    cases h
    rw [List.takeWhile_append]
    split_ifs
    · exact (List.takeWhile_prefix _).trans (List.prefix_append _ _)
    · exact List.prefix_rfl

theorem nul_notMem_of_all (hg : g.all isSpace) : '\x00' ∉ g := by
  intro h
  exact absurd (List.all_eq_true.mp hg _ h) (by decide)

theorem IsBlank.plain (hg : IsBlank g) : IsPlain g := ⟨hg.2,nul_notMem_of_all hg.1⟩

theorem IsWord.plain (hw : IsWord w) : IsPlain w := by
  refine ⟨fun h => ?_,hw.2.2⟩
  exact absurd (List.all_eq_true.mp hw.2.1 _ h) (by decide)

theorem IsPlain.append {s t : List Char} (hs : IsPlain s) (ht : IsPlain t) : IsPlain (s ++ t) := by
  refine ⟨fun h => ?_,fun h => ?_⟩
  · exact (List.mem_append.mp h).elim hs.1 ht.1
  · exact (List.mem_append.mp h).elim hs.2 ht.2

theorem Spaced.plain (hs : Spaced ws) : IsPlain (spacedText ws) := by
  induction ws with
  | nil => exact ⟨List.not_mem_nil,List.not_mem_nil⟩
  | cons p ws ih =>
    obtain ⟨-,hb,hw⟩ := hs p List.mem_cons_self
    rw [spacedText,List.flatMap_cons]
    exact (hb.plain.append hw.plain).append (ih fun q hq => hs q (List.mem_cons_of_mem _ hq))

end WordsOfALine

section Numerals

variable {ds : List Char}

theorem not_isSpace_of_isDigit {c : Char} (h : c.isDigit) : isSpace c = false := by
  by_contra hs
  simp only [isSpace,Bool.not_eq_false,Bool.or_eq_true,beq_iff_eq] at hs
  rcases hs with ((((rfl | rfl) | rfl) | rfl) | rfl) | rfl <;> exact absurd h (by decide)

theorem isWord_of_digits (hne : ds ≠ []) (hd : ds.all Char.isDigit) : IsWord ds := by
  have hdigit := List.all_eq_true.mp hd
  refine ⟨hne,List.all_eq_true.mpr fun c hc => ?_,fun h => ?_⟩
  · simp [not_isSpace_of_isDigit (hdigit c hc)]
  · exact absurd (hdigit _ h) (by decide)

theorem atoi_digits (hd : ds.all Char.isDigit) : atoi ds = digitsValue ds := by
  have hdigit := List.all_eq_true.mp hd
  have hskip : ds.dropWhile isSpace = ds := by
    cases ds with
    | nil => rfl
    | cons c cs => simp [not_isSpace_of_isDigit (hdigit c List.mem_cons_self)]
  rw [atoi,hskip]
  split
  · exact absurd (hdigit '-' List.mem_cons_self) (by decide)
  · exact absurd (hdigit '+' List.mem_cons_self) (by decide)
  · rw [List.takeWhile_eq_self_iff.mpr hdigit]

theorem le_foldl_digits (v : ℕ) (cs : List Char) :
    v ≤ cs.foldl (fun v c => 10*v+(c.toNat - '0'.toNat)) v := by
  induction cs generalizing v with
  | nil => exact Nat.le_refl v
  | cons c cs ih =>
    calc v ≤ 10*v+(c.toNat - '0'.toNat) := by omega
      _ ≤ _ := ih _

/-- Every further digit makes the number at least ten times as large. -/
theorem digitsValue_append {x : List Char} (hx : x ≠ []) (ds : List Char) :
    10*digitsValue ds ≤ digitsValue (ds ++ x) := by
  obtain ⟨c,cs,rfl⟩ := List.exists_cons_of_ne_nil hx
  rw [digitsValue,digitsValue,List.foldl_append,List.foldl_cons]
  exact (Nat.le_add_right _ _).trans (le_foldl_digits _ cs)

theorem isHex_cases {c : Char} (h : isHex c) :
    isSpace c = false ∧ c ≠ '-' ∧ c ≠ '+' ∧ c ≠ 'x' ∧ c ≠ 'X' ∧ c ≠ '\n' ∧ c ≠ '\x00' := by
  have hno (d : Char) (hd : isHex d = false) : c ≠ d := by
    rintro rfl
    rw [hd] at h
    cases h
  refine ⟨?_,hno _ rfl,hno _ rfl,hno _ rfl,hno _ rfl,hno _ rfl,hno _ rfl⟩
  by_contra hs
  simp only [isSpace,Bool.not_eq_false,Bool.or_eq_true,beq_iff_eq] at hs
  rcases hs with ((((rfl | rfl) | rfl) | rfl) | rfl) | rfl <;> exact absurd h (by decide)

theorem scanHex_digits {c : Char} (hne : ds ≠ []) (hd : ds.all isHex)
    (hv : hexValue ds < 2^64) (hc : isHex c = false) (hx : c ≠ 'x' ∧ c ≠ 'X') (rest : List Char) :
    scanHex (ds ++ c::rest) = some (BitVec.ofNat 64 (hexValue ds),c::rest) := by
  have hhex := List.all_eq_true.mp hd
  obtain ⟨d,ds',rfl⟩ := List.exists_cons_of_ne_nil hne
  obtain ⟨hspace,hminus,hplus,-⟩ := isHex_cases (hhex d List.mem_cons_self)
  have hskip : (d::ds' ++ c::rest).dropWhile isSpace = d::ds' ++ c::rest := by
    simp [hspace]
  have hhead : (d::ds' ++ c::rest).head? = some d := rfl
  -- the character behind a leading zero is a digit or the one that ends the number
  have hstarts : ¬((d::ds' ++ c::rest).take 2 = ['0','x'] ∨
      (d::ds' ++ c::rest).take 2 = ['0','X']) := by
    cases ds' with
    | nil => simp [hx.1,hx.2]
    | cons e es =>
      obtain ⟨-,-,-,hex,hex',-⟩ := isHex_cases (hhex e (by simp))
      simp [hex,hex']
  have htake := takeWhile_stop hhex hc rest
  have hdrop := dropWhile_stop hhex hc rest
  simp only [scanHex,hskip,hhead,Option.some.injEq,beq_iff_eq,hminus,hplus,or_self,if_false,
    if_neg hstarts,htake,hdrop,List.cons_ne_nil,Nat.not_le.mpr hv]

theorem skipWords_suffix (n : ℕ) (s : List Char) : skipWords n s <:+ s := by
  induction n generalizing s with
  | zero => exact List.suffix_rfl
  | succ n ih =>
    rw [skipWords]
    split
    · exact List.nil_suffix
    · rename_i w rest hscan
      refine (ih rest).trans ?_
      rw [scanWord] at hscan
      split_ifs at hscan
      cases hscan
      exact (List.dropWhile_suffix _).trans (List.dropWhile_suffix _)

end Numerals

end CText
end VmplApps
