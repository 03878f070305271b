import VmplApps.ExecScript

/-! The first line of a script as a text: `#!`, blanks, an interpreter, and what follows it.
`shebang` reads it off the contents of a file; `exec_execev` works on indices of a page in
which unread bytes follow the contents. -/
namespace VmplApps
namespace ExecScript

open SandboxAccesses
open InitialStack (StringAt)

def loaded (content : List Byte) (junk : ℕ → Byte) : ExecFile where
  opened := true
  len := content.length
  page i := (content[i]?).getD (junk i)

def hashBang : List Byte := [0x23,0x21]

def elfMagic : List Byte := [0x7f,0x45,0x4c,0x46]

section Contents
variable (content : List Byte)

/-- The rest of the first line, and what follows it. -/
def line : List Byte := (content.drop 2).takeWhile (· != newline)

def rest : List Byte := (content.drop 2).dropWhile (· != newline)

def blanks : List Byte := (line content).takeWhile ExecFile.isBlank

def body : List Byte := (line content).dropWhile ExecFile.isBlank

/-- The maximal run of bytes that can belong to the interpreter. -/
def interp : List Byte := (body content).takeWhile fun b => !endsInterp b

def behind : List Byte := (body content).dropWhile fun b => !endsInterp b

/-- The argument string: the rest of the line behind a blank. -/
def argument : Option (List Byte) :=
  match behind content with
  | c::text => if ExecFile.isBlank c then some text else none
  | [] => none

inductive Reading
  | other
  | script (strings : Option (List Byte × Option (List Byte)))

def shebang : Reading :=
  if content.take 2 = hashBang then
    .script (if interp content = [] then none else some (interp content,argument content))
  else .other

def EndsEarly : Prop := (content.takeWhile (· != newline)).length < EXECPGSIZE - 1

/-- A file that starts with `#!` names no interpreter, or a newline follows it, or a blank
and then no terminator up to the end of the line; any other file differs from `#!` in both
bytes. -/
def PlainText : Prop :=
  if content.take 2 = hashBang then
    interp content = [] ∨ (behind content = [] ∧ rest content ≠ []) ∨
      ∃ text, argument content = some text ∧ 0 ∉ text
  else content[0]? ≠ some 0x23 ∧ content[1]? ≠ some 0x21

end Contents

def Follows (plan : Plan) (page : ℕ → Byte) : Reading → Prop
  | .other => plan = .refused
  | .script none => plan = .script none
  | .script (some (name,none)) => ∃ b, plan = .script (some ⟨b,none⟩) ∧ StringAt page b name
  | .script (some (name,some text)) =>
    ∃ b a, plan = .script (some ⟨b,some a⟩) ∧ StringAt page b name ∧ StringAt page a text

section Loaded
variable {content : List Byte} (junk : ℕ → Byte)

theorem text_get {i : ℕ} (hi : i < content.length) : (loaded content junk).text i = content[i] := by
  rw [ExecFile.text,if_neg]
  · simp only [loaded,List.getElem?_eq_getElem hi,Option.getD_some]
  · simp only [loaded]
    omega

theorem text_segment {front seg back : List Byte} (h : content = front ++ seg ++ back) {i : ℕ}
    (hi : i < seg.length) : (loaded content junk).text (front.length + i) = seg[i] := by
  subst h
  rw [text_get junk (by simp only [List.length_append]; omega)]
  simp [hi]

theorem text_next {front back : List Byte} {c : Byte} (h : content = front ++ c::back) :
    (loaded content junk).text front.length = c := by
  subst h
  rw [text_get junk (by simp)]
  simp

theorem text_end (hlen : content.length < EXECPGSIZE) :
    (loaded content junk).text content.length = 0 :=
  text_len (f := loaded content junk) (by simp only [loaded]; omega) rfl

/-- A scan over a stretch stops behind it, at a byte of the contents or at the terminator. -/
theorem firstStop_segment {stop : Byte → Bool} {front seg back : List Byte} {n : ℕ}
    (h : content = front ++ seg ++ back) (hn : seg.length < n)
    (hseg : ∀ c ∈ seg, stop c = false)
    (hback : stop ((loaded content junk).text (front.length + seg.length)) = true) :
    firstStop (loaded content junk).text stop front.length n = front.length + seg.length := by
  apply firstStop_eq (Nat.le_add_right _ _) (by omega) hback
  intro k hlo hhi
  obtain ⟨i,rfl⟩ := Nat.exists_eq_add_of_le hlo
  rw [text_segment junk h (by omega)]
  exact hseg _ (List.getElem_mem _)

/-- Behind a stretch that is followed by the end of the line stands a newline or, at the end
of a file shorter than the page, the terminator. -/
theorem endsLine_behind {front : List Byte} (h : content = front ++ rest content)
    (hlen : front.length < EXECPGSIZE) :
    (rest content = [] ∧ (loaded content junk).text front.length = 0) ∨
      (rest content ≠ [] ∧ (loaded content junk).text front.length = newline) := by
  cases hrest : rest content with
  | nil =>
    rw [hrest,List.append_nil] at h
    refine .inl ⟨rfl,?_⟩
    rw [← h] at hlen ⊢
    exact text_end junk hlen
  | cons c back =>
    have hc : c = newline := by
      have hhead := List.head?_dropWhile_not (· != newline) (content.drop 2)
      rw [rest] at hrest
      rw [hrest] at hhead
      simpa using hhead
    rw [hrest] at h
    exact .inr ⟨List.cons_ne_nil c back,by rw [text_next junk h,hc]⟩

/-- A scan over a stretch up to the end of the line stops at the first byte that the test
holds for, or at the end of the line. -/
theorem firstStop_line {stop : Byte → Bool} (hnl : stop newline = true) (hzero : stop 0 = true)
    {front text : List Byte} {n : ℕ} (h : content = front ++ text ++ rest content)
    (hlen : (front ++ text).length < EXECPGSIZE) (hn : text.length < n) :
    firstStop (loaded content junk).text stop front.length n =
      front.length + (text.takeWhile fun b => !stop b).length := by
  have hsplit : text = (text.takeWhile fun b => !stop b) ++ text.dropWhile fun b => !stop b :=
    List.takeWhile_append_dropWhile.symm
  have hshort := congrArg List.length hsplit
  rw [List.length_append] at hshort
  have hseg : ∀ c ∈ text.takeWhile fun b => !stop b, stop c = false := by
    intro c hc
    simpa using List.mem_takeWhile_imp hc
  cases hback : text.dropWhile fun b => !stop b with
  | nil =>
    rw [hback,List.append_nil] at hsplit
    rw [← hsplit] at hseg ⊢
    apply firstStop_segment junk h hn hseg
    rw [← List.length_append]
    rcases endsLine_behind junk h hlen with ⟨-,hbyte⟩ | ⟨-,hbyte⟩ <;> rw [hbyte]
    · exact hzero
    · exact hnl
  | cons c back =>
    have hhead := List.head?_dropWhile_not (fun b => !stop b) text
    rw [hback] at hsplit hhead
    have hc : stop c = true := by simpa using hhead
    have hparts : content = front ++ (text.takeWhile fun b => !stop b) ++ (c::back ++ rest content) := by
      rw [List.append_assoc front,← List.append_assoc _ (c::back),← hsplit,← List.append_assoc]
      exact h
    apply firstStop_segment junk hparts (by omega) hseg
    rw [← List.length_append,text_next junk hparts]
    exact hc

end Loaded

section Script
variable {content : List Byte} (junk : ℕ → Byte)

theorem line_rest (h : content.take 2 = hashBang) :
    content = hashBang ++ line content ++ rest content := by
  rw [List.append_assoc,line,rest,List.takeWhile_append_dropWhile,← h,List.take_append_drop]

theorem blanks_body (content : List Byte) : blanks content ++ body content = line content :=
  List.takeWhile_append_dropWhile

theorem interp_behind (content : List Byte) : interp content ++ behind content = body content :=
  List.takeWhile_append_dropWhile

theorem length_line (h : content.take 2 = hashBang) (hline : EndsEarly content) :
    (hashBang ++ line content).length < EXECPGSIZE - 1 := by
  have hcontent : content = hashBang ++ content.drop 2 := by rw [← h,List.take_append_drop]
  rw [EndsEarly,hcontent] at hline
  exact hline

theorem loaded_interpBegin (h : content.take 2 = hashBang) (hline : EndsEarly content) :
    interpBegin (loaded content junk).text = (hashBang ++ blanks content).length := by
  have hlen := length_line h hline
  rw [List.length_append] at hlen ⊢
  have hblank : (fun b => !endsBlanks b) = ExecFile.isBlank := by
    funext b
    exact Bool.not_not _
  have hfirst : firstStop (loaded content junk).text endsBlanks hashBang.length (EXECPGSIZE - 2) =
      hashBang.length + ((line content).takeWhile fun b => !endsBlanks b).length :=
    firstStop_line junk rfl rfl (line_rest h) (by rw [List.length_append]; omega)
      (by simp only [hashBang,List.length_cons,List.length_nil] at hlen; omega)
  rw [hblank] at hfirst
  exact hfirst

theorem loaded_interpEnd (h : content.take 2 = hashBang) (hline : EndsEarly content) :
    interpEnd (loaded content junk).text =
      (hashBang ++ blanks content ++ interp content).length := by
  have hlen := length_line h hline
  have hcontent : content = hashBang ++ blanks content ++ body content ++ rest content := by
    rw [List.append_assoc hashBang,blanks_body]
    exact line_rest h
  rw [← blanks_body,← List.append_assoc] at hlen
  have hscan : firstStop (loaded content junk).text endsInterp (hashBang ++ blanks content).length
      (EXECPGSIZE - (hashBang ++ blanks content).length) =
      (hashBang ++ blanks content).length + (interp content).length :=
    firstStop_line junk rfl rfl hcontent (by omega) (by rw [List.length_append] at hlen; omega)
  rw [← List.length_append] at hscan
  rw [interpEnd,loaded_interpBegin junk h hline]
  exact hscan

theorem loaded_argEnd (h : content.take 2 = hashBang) (hline : EndsEarly content)
    (hzero : 0 ∉ behind content) :
    argEnd (loaded content junk).text =
      (hashBang ++ blanks content ++ interp content ++ behind content).length := by
  have hlen := length_line h hline
  have hline' : hashBang ++ line content =
      hashBang ++ blanks content ++ interp content ++ behind content := by
    rw [← blanks_body,← interp_behind]
    simp only [List.append_assoc]
  have hcontent := line_rest h
  rw [hline'] at hlen hcontent
  have hall : (behind content).takeWhile (fun b => !endsLine b) = behind content := by
    rw [List.takeWhile_eq_self_iff]
    intro c hc
    have hmem : c ∈ line content := by
      rw [← blanks_body,← interp_behind]
      simp [hc]
    have hnl : c ≠ newline := by simpa using List.mem_takeWhile_imp hmem
    have hne : (c == 0) = false := beq_eq_false_iff_ne.mpr fun heq => hzero (heq ▸ hc)
    rw [endsLine,hne,beq_eq_false_iff_ne.mpr hnl]
    rfl
  have hscan : firstStop (loaded content junk).text endsLine
      (hashBang ++ blanks content ++ interp content).length
      (EXECPGSIZE - (hashBang ++ blanks content ++ interp content).length) =
      (hashBang ++ blanks content ++ interp content).length +
        ((behind content).takeWhile fun b => !endsLine b).length :=
    firstStop_line junk rfl rfl hcontent (by omega) (by rw [List.length_append] at hlen; omega)
  rw [hall,← List.length_append] at hscan
  rw [argEnd,loaded_interpEnd junk h hline]
  exact hscan

theorem content_parts (h : content.take 2 = hashBang) :
    content = hashBang ++ blanks content ++ interp content ++ (behind content ++ rest content) := by
  rw [← List.append_assoc,List.append_assoc _ _ (behind content),interp_behind,
    List.append_assoc hashBang,blanks_body]
  exact line_rest h

theorem text_interpEnd (h : content.take 2 = hashBang) (hline : EndsEarly content) :
    (loaded content junk).text (interpEnd (loaded content junk).text) =
      ((behind content).head?).getD (if rest content = [] then 0 else newline) := by
  have hparts := content_parts h
  have hlen := length_line h hline
  rw [loaded_interpEnd junk h hline]
  cases hbehind : behind content with
  | nil =>
    rw [hbehind] at hparts
    rw [← blanks_body,← interp_behind,hbehind,List.append_nil,← List.append_assoc] at hlen
    rcases endsLine_behind junk hparts (by omega) with ⟨hrest,hbyte⟩ | ⟨hrest,hbyte⟩
    · rw [hbyte,if_pos hrest]
      rfl
    · rw [hbyte,if_neg hrest]
      rfl
  | cons c text =>
    rw [hbehind] at hparts
    exact text_next junk hparts

theorem stringAt_of_bytes {page : ℕ → Byte} {a : ℕ} {bs : List Byte} (hzero : 0 ∉ bs)
    (hbytes : ∀ i (h : i < bs.length), page (a+i) = bs[i]) (hend : page (a + bs.length) = 0) :
    StringAt page a bs := by
  rw [InitialStack.stringAt_iff hzero,ByteMemory.bytesAt_iff]
  intro i hi
  rw [List.length_append,List.length_singleton] at hi
  rcases Nat.lt_or_eq_of_le (Nat.lt_succ_iff.mp hi) with hlt | rfl
  · rw [hbytes i hlt,List.getElem_append_left hlt]
  · rw [hend,List.getElem_append_right le_rfl]
    simp

theorem zero_notMem_of_stringAt {page : ℕ → Byte} {a : ℕ} {bs : List Byte}
    (h : StringAt page a bs) : 0 ∉ bs := by
  induction bs generalizing a with
  | nil => exact List.not_mem_nil
  | cons b bs ih =>
    obtain ⟨-,hne,hrest⟩ := h
    rw [List.mem_cons,not_or]
    exact ⟨Ne.symm hne,ih hrest⟩

theorem zero_notMem_interp (content : List Byte) : 0 ∉ interp content := by
  intro hmem
  exact absurd (List.mem_takeWhile_imp hmem) (by decide)

theorem newline_notMem_behind (content : List Byte) : newline ∉ behind content := by
  intro hmem
  have hline : newline ∈ line content := by
    rw [← blanks_body,← interp_behind]
    simp [hmem]
  exact absurd (List.mem_takeWhile_imp hline) (by decide)

theorem stringAt_interp (h : content.take 2 = hashBang) (hline : EndsEarly content)
    {page : ℕ → Byte}
    (hsame : ∀ j < interpEnd (loaded content junk).text, page j = (loaded content junk).text j)
    (hend : page (interpEnd (loaded content junk).text) = 0) :
    StringAt page (interpBegin (loaded content junk).text) (interp content) := by
  rw [loaded_interpEnd junk h hline,List.length_append] at hsame hend
  rw [loaded_interpBegin junk h hline]
  apply stringAt_of_bytes (zero_notMem_interp content) _ hend
  intro i hi
  rw [hsame _ (by omega)]
  exact text_segment junk (content_parts h) hi

theorem stringAt_argument (h : content.take 2 = hashBang) (hline : EndsEarly content) {c : Byte}
    {text : List Byte} (hbehind : behind content = c::text) (hzero : 0 ∉ behind content) :
    StringAt (cutPage (loaded content junk).text) (interpEnd (loaded content junk).text + 1)
      text := by
  have hend := loaded_interpEnd junk h hline
  have harg := loaded_argEnd junk h hline hzero
  have hparts : content =
      hashBang ++ blanks content ++ interp content ++ [c] ++ text ++ rest content := by
    have hall := content_parts h
    rw [hbehind] at hall
    rw [List.append_assoc _ [c],List.append_assoc _ ([c] ++ text)]
    exact hall
  rw [hbehind,List.length_append,← hend,List.length_cons] at harg
  have hpos : (hashBang ++ blanks content ++ interp content ++ [c]).length =
      interpEnd (loaded content junk).text + 1 := by
    rw [List.length_append,← hend]
    rfl
  rw [hbehind] at hzero
  apply stringAt_of_bytes (List.not_mem_of_not_mem_cons hzero)
  · intro i hi
    rw [cutPage_of_ne (by omega) (by omega),← hpos]
    exact text_segment junk hparts hi
  · have hat : interpEnd (loaded content junk).text + 1 + text.length =
        argEnd (loaded content junk).text := by omega
    rw [hat]
    exact cutPage_argEnd _

theorem behind_of_newline (h : content.take 2 = hashBang) (hline : EndsEarly content)
    (hnl : (loaded content junk).text (interpEnd (loaded content junk).text) = newline) :
    behind content = [] ∧ rest content ≠ [] := by
  rw [text_interpEnd junk h hline] at hnl
  cases hbehind : behind content with
  | nil =>
    refine ⟨rfl,fun hrest => ?_⟩
    rw [hbehind,hrest] at hnl
    exact absurd hnl (by decide)
  | cons c text =>
    rw [hbehind] at hnl
    have hmem : newline ∈ behind content := by
      rw [hbehind,← hnl]
      exact List.mem_cons_self
    exact absurd hmem (newline_notMem_behind content)

theorem behind_of_argument {text : List Byte} (harg : argument content = some text) :
    ∃ c, behind content = c::text ∧ ExecFile.isBlank c = true := by
  rw [argument] at harg
  split at harg
  · rename_i c text' hbehind
    split_ifs at harg with hblank
    cases harg
    exact ⟨c,hbehind,hblank⟩
  · cases harg

/-- An interpreter with a string behind it is read as it stands exactly when a blank starts
an argument without a terminator. -/
theorem follows_argument_iff (h : content.take 2 = hashBang) (hline : EndsEarly content)
    (hnl : (loaded content junk).text (interpEnd (loaded content junk).text) ≠ newline) :
    Follows
        (.script (some ⟨interpBegin (loaded content junk).text,
          some (interpEnd (loaded content junk).text + 1)⟩))
        (cutPage (loaded content junk).text) (.script (some (interp content,argument content))) ↔
      (behind content = [] ∧ rest content ≠ []) ∨
        ∃ text, argument content = some text ∧ 0 ∉ text := by
  have hnext := text_interpEnd junk h hline
  have hinterp : StringAt (cutPage (loaded content junk).text)
      (interpBegin (loaded content junk).text) (interp content) := by
    have hle := end_le_argEnd (loaded content junk).text
    exact stringAt_interp junk h hline (fun j hj => cutPage_of_ne (by omega) (by omega))
      (cutPage_interpEnd _)
  cases harg : argument content with
  | none =>
    refine iff_of_false ?_ ?_
    · rintro ⟨b,hplan,-⟩
      simp at hplan
    · rintro (⟨hbehind,hrest⟩ | ⟨text,htext,-⟩)
      · rw [hbehind,if_neg hrest] at hnext
        exact hnl hnext
      · cases htext
  | some text =>
    obtain ⟨c,hbehind,hblank⟩ := behind_of_argument harg
    constructor
    · rintro ⟨b,a,-,-,htext⟩
      exact .inr ⟨text,rfl,zero_notMem_of_stringAt htext⟩
    · rintro (⟨hnil,-⟩ | ⟨text',htext,hzero⟩)
      · rw [hbehind] at hnil
        cases hnil
      · cases htext
        refine ⟨_,_,rfl,hinterp,stringAt_argument junk h hline hbehind ?_⟩
        rw [hbehind,List.mem_cons,not_or]
        refine ⟨?_,hzero⟩
        rintro rfl
        cases hblank

/-- The first line of a script is read as it stands exactly when it is plain. -/
theorem parseScript_follows_iff (h : content.take 2 = hashBang) (hline : EndsEarly content)
    {s : Buffer} (hpage : s.page = (loaded content junk).text) :
    Follows (.script (parseScript s).1) (parseScript s).2.page
        (.script (if interp content = [] then none else some (interp content,argument content))) ↔
      interp content = [] ∨ (behind content = [] ∧ rest content ≠ []) ∨
        ∃ text, argument content = some text ∧ 0 ∉ text := by
  have hcases := parseScript_cases s
  have hlen : interpEnd (loaded content junk).text =
      interpBegin (loaded content junk).text + (interp content).length := by
    rw [loaded_interpEnd junk h hline,List.length_append,← loaded_interpBegin junk h hline]
  have hnonempty (hlt : interpBegin (loaded content junk).text <
      interpEnd (loaded content junk).text) : interp content ≠ [] := by
    intro hnil
    rw [hnil,List.length_nil] at hlen
    omega
  rw [hpage] at hcases
  rcases hcases with ⟨hbe,hnone,-⟩ | ⟨hlt,hnl,hstrings,hp,-⟩ | ⟨hlt,hnl,hstrings,hp,-⟩
  · have hnil : interp content = [] := List.length_eq_zero_iff.mp (by omega)
    rw [hnone,if_pos hnil]
    exact iff_of_true rfl (.inl hnil)
  · obtain ⟨hbehind,hrest⟩ := behind_of_newline junk h hline hnl
    have hnoarg : argument content = none := by rw [argument,hbehind]
    rw [hstrings,hp,if_neg (hnonempty hlt),hnoarg]
    refine iff_of_true ⟨_,rfl,?_⟩ (.inr (.inl ⟨hbehind,hrest⟩))
    exact stringAt_interp junk h hline (fun j hj => Function.update_of_ne hj.ne _ _)
      (Function.update_self _ _ _)
  · rw [hstrings,hp,if_neg (hnonempty hlt),or_iff_right (hnonempty hlt)]
    exact follows_argument_iff junk h hline hnl

end Script

theorem exists_two {content : List Byte} (h : 2 ≤ content.length) :
    ∃ a b tail, content = a::b::tail := by
  match content, h with
  | a::b::tail, _ => exact ⟨a,b,tail,rfl⟩

theorem loaded_isScript (junk : ℕ → Byte) (a b : Byte) (tail : List Byte) :
    (loaded (a::b::tail) junk).isScript = (a == 0x23 || b == 0x21) := by
  rw [ExecFile.isScript,text_get junk (by simp),text_get junk (by simp)]
  rfl

theorem loaded_isElf {content : List Byte} (junk : ℕ → Byte) (h : content.take 4 ≠ elfMagic) :
    (loaded content junk).isElf = false := by
  by_contra helf
  rw [Bool.not_eq_false,ExecFile.isElf] at helf
  simp only [Bool.and_eq_true,beq_iff_eq] at helf
  have hbytes : ∀ i (hi : i < 4), (loaded content junk).text i = elfMagic[i] := by
    intro i hi
    interval_cases i
    · exact helf.1.1.1
    · exact helf.1.1.2
    · exact helf.1.2
    · exact helf.2
  have hnonzero : ∀ i (hi : i < 4), elfMagic[i] ≠ 0 := by decide
  by_cases hlen : 4 ≤ content.length
  · apply h
    apply List.ext_getElem
    · rw [List.length_take,min_eq_left hlen]
      rfl
    · intro i hi _
      rw [List.length_take,min_eq_left hlen] at hi
      rw [List.getElem_take,← text_get junk (by omega)]
      exact hbytes i hi
  · have hend : (loaded content junk).text content.length = 0 :=
      text_end junk (lt_trans (not_le.mp hlen) (by decide))
    rw [hbytes _ (not_le.mp hlen)] at hend
    exact hnonzero _ _ hend

/-- On every file of at least two bytes whose first line ends before the page does and which
is not an ELF file, `exec_execev` takes the file as its first line says exactly when that
line is plain. -/
theorem execPlan_follows_iff (content : List Byte) (junk : ℕ → Byte) (h2 : 2 ≤ content.length)
    (helf : content.take 4 ≠ elfMagic) (hline : EndsEarly content) :
    Follows (execPlan content.length ⟨(loaded content junk).page,[]⟩).1
      (execPlan content.length ⟨(loaded content junk).page,[]⟩).2.page (shebang content) ↔
      PlainText content := by
  obtain ⟨a,b,tail,rfl⟩ := exists_two h2
  have hfull : (loaded (a::b::tail) junk).len = (a::b::tail).length := rfl
  obtain ⟨s,hpage,-,hrun⟩ := execPlan_run (loaded (a::b::tail) junk) (by rw [hfull]; omega)
  rw [hfull,loaded_isElf junk helf,loaded_isScript] at hrun
  rw [hrun,shebang,PlainText]
  by_cases h : (a::b::tail).take 2 = hashBang
  · obtain ⟨rfl,rfl⟩ : a = 0x23 ∧ b = 0x21 := by simpa [hashBang] using h
    rw [if_pos h,if_pos h]
    exact parseScript_follows_iff junk h hline hpage
  · rw [if_neg h,if_neg h]
    simp only [List.getElem?_cons_zero,List.getElem?_cons_succ,ne_eq,Option.some.injEq]
    cases ha : a == 0x23 <;> cases hb : b == 0x21 <;> simp_all [Follows]

/-- `#!/a -b`, a newline, and a second line. -/
def withArgument : List Byte := [0x23,0x21,0x2f,0x61,0x20,0x2d,0x62,0x0a,0x63]

theorem execPlan_follows_iff_withArgument :
    Follows (execPlan withArgument.length ⟨(loaded withArgument fun _ => 0xcc).page,[]⟩).1
      (execPlan withArgument.length ⟨(loaded withArgument fun _ => 0xcc).page,[]⟩).2.page
      (.script (some ([0x2f,0x61],some [0x2d,0x62]))) := by
  apply (execPlan_follows_iff withArgument _ (by decide) (by decide) (by rw [EndsEarly]; decide)).mpr
  rw [PlainText,if_pos (by decide)]
  exact .inr (.inr ⟨_,rfl,by decide⟩)

def twoHashes : List Byte := [0x23,0x23,0x61,0x0a]

/-- A file that starts with `##` is run as a script. -/
theorem twoHashes_script : shebang twoHashes = .other ∧
    (execPlan twoHashes.length ⟨(loaded twoHashes fun _ => 0).page,[]⟩).1 =
      .script (some ⟨2,none⟩) :=
  ⟨rfl,by decide +kernel⟩

end ExecScript
end VmplApps
