import VmplApps.CText
import VmplApps.SthreadMachine

/-! `checkpoint_prepare`: the segments of the process, read from `/proc/self/maps` with one
call of `read` and split in place. Threads are checkpointed and recycled by these segments.
The `xmalloc` of a list cell is taken to succeed. -/
namespace VmplApps
namespace Sthreads

open CText

inductive MapsResult
  | returned (segments : List Segment) (mem : Word) (size : CInt)
  /-- A call of `err`. -/
  | exited
  /-- A store through the null pointer of `strchr`. -/
  | crashed
  | overflow
  /-- A format that asks for arguments. -/
  | undefined
  | outOfFuel
  deriving DecidableEq

def STR_STACK : List Char := "stack".toList

/-- `sscanf` with `%lx-%lx %s`. -/
def scanMapsLine (line : List Char) : Option (Word × Word × List Char) := do
  let (start,s) ← scanHex line
  let s ← if s.head? = some '-' then some s.tail else none
  let (stop,s) ← scanHex s
  let (perm,_) ← scanWord s
  return (start,stop,perm)

section Prepare
-- `junk` is in the bytes of `perm` that `sscanf` does not write, and `mmap` replies to a length.
variable (junk : ℕ → Char) (mmap : Word → Word)

def permAt (perm : List Char) (i : ℕ) : Char := (perm ++ ['\x00'])[i]?.getD (junk i)

def segmentOf (start stop : Word) (perm : List Char) : Segment where
  sStart := start
  sEnd := stop
  sLen := stop - start
  sFlags := (if permAt junk perm 1 = 'w' then PROT_WRITE else 0) |||
    (if permAt junk perm 0 = 'r' then PROT_READ else 0) |||
    (if permAt junk perm 3 = 'x' then PROT_EXEC else 0)

/-- The loop over the buffer, from `p` to its end; the length to save is kept in an `int`. -/
def prepareLoop : ℕ → List Char → List Segment → CInt → MapsResult
  | 0, _, _, _ => .outOfFuel
  | n+1, p, segs, writable =>
    if p = [] then
      let mem := mmap (writable.signExtend 64)
      if mem = MAP_FAILED then .exited else .returned segs mem writable
    -- the result of `strchr` is not tested
    else if '\n' ∉ p then .crashed
    else
      let line := p.takeWhile (· != '\n')
      let p2 := (p.dropWhile (· != '\n')).tail
      match scanMapsLine line with
      | none => .exited
      | some (start,stop,perm) =>
        if 16 ≤ perm.length then .overflow
        else if STR_STACK <:+: line then prepareLoop n p2 segs writable
        else if formatDefined line = false then .undefined
        else
          let s := segmentOf junk start stop perm
          prepareLoop n p2 (segs ++ [s])
            (if permAt junk perm 1 = 'w' then writable+s.sLen.setWidth 32 else writable)

/-- `maps` is `none` when the file cannot be opened; the kernel hands over at most `ready`
bytes of it in one call. -/
def checkpointPrepare (ready : ℕ) (maps : Option (List Char)) : MapsResult :=
  match maps with
  | none => .exited
  | some text =>
    let buf := text.take (min ready 8191)
    if buf = [] then .exited else prepareLoop junk mmap (buf.length+1) (cString buf) [] 0

end Prepare

structure HexNumber where
  digits : List Char
  nonempty : digits ≠ []
  hex : digits.all isHex
  fits : hexValue digits < 2^64

def HexNumber.value (n : HexNumber) : Word := BitVec.ofNat 64 (hexValue n.digits)

/-- A line of the memory map: a range, the permission letters, and `rest` with the offset,
the device, the inode and the path. -/
structure MapLine where
  start : HexNumber
  stop : HexNumber
  r : Bool
  w : Bool
  x : Bool
  shared : Bool
  rest : List Char
  sep : rest.takeWhile (fun c => !isSpace c) = []
  plain : IsPlain rest

namespace MapLine

def perms (l : MapLine) : List Char :=
  [if l.r then 'r' else '-',if l.w then 'w' else '-',if l.x then 'x' else '-',
    if l.shared then 's' else 'p']

def text (l : MapLine) : List Char :=
  l.start.digits ++ '-'::(l.stop.digits ++ ' '::(l.perms ++ l.rest))

def path (l : MapLine) : List Char := (skipWords 3 l.rest).dropWhile isSpace

def isStack (l : MapLine) : Bool := l.path == "[stack]".toList

def flags (l : MapLine) : CInt :=
  (if l.w then PROT_WRITE else 0) ||| (if l.r then PROT_READ else 0) |||
    (if l.x then PROT_EXEC else 0)

def len (l : MapLine) : Word := l.stop.value - l.start.value

def segment (l : MapLine) : Segment := ⟨l.start.value,l.stop.value,l.len,l.flags⟩

def recorded (l : MapLine) : Segment :=
  ⟨l.start.value,l.stop.value,l.len,
    (if l.w then PROT_WRITE else 0) ||| (if l.r then PROT_READ else 0)⟩

def skipped (l : MapLine) : Bool := STR_STACK <:+: l.text

def count (l : MapLine) (n : CInt) : CInt := if l.w then n+l.len.setWidth 32 else n

end MapLine

def mapsText (lines : List MapLine) : List Char := lines.flatMap fun l => l.text ++ ['\n']

/-- There is one segment for each line but the stack's, with the values on the line. -/
def ReflectsMaps (lines : List MapLine) (result : MapsResult) : Prop :=
  ∃ mem size, result =
    .returned ((lines.filter fun l => !l.isStack).map MapLine.segment) mem size

/-- The length of the writable segments, as the code counts it. -/
def writableLen (lines : List MapLine) : CInt := lines.foldl (fun n l => l.count n) 0

structure MapLine.Plain (l : MapLine) : Prop where
  noStack : l.skipped = false
  noExec : l.x = false
  format : formatDefined l.text = true

/-- The read ends at the end of a line, and behind it there is at most the stack's; the
others are plain, and memory is there for the writable ones. -/
def MapsFit (mmap : Word → Word) (ready : ℕ) (lines : List MapLine) : Prop :=
  ∃ seen unseen, lines = seen ++ unseen ∧ seen ≠ [] ∧
    (mapsText lines).take (min ready 8191) = mapsText seen ∧
    (∀ l ∈ unseen, l.isStack) ∧ (∀ l ∈ seen, !l.isStack → l.Plain) ∧
    mmap ((writableLen (seen.filter fun l => !l.isStack)).signExtend 64) ≠ MAP_FAILED

section Line
variable {l : MapLine}

theorem HexNumber.plain (n : HexNumber) : IsPlain n.digits := by
  have hhex := List.all_eq_true.mp n.hex
  refine ⟨fun h => ?_,fun h => ?_⟩
  · exact absurd (hhex _ h) (by decide)
  · exact absurd (hhex _ h) (by decide)

namespace MapLine

theorem perms_plain (l : MapLine) : IsPlain l.perms := by
  rw [perms,IsPlain]
  constructor <;> cases l.r <;> cases l.w <;> cases l.x <;> cases l.shared <;> decide

theorem text_plain (l : MapLine) : IsPlain l.text := by
  have hdash : IsPlain ['-'] := by decide
  have hblank : IsPlain [' '] := by decide
  exact l.start.plain.append (hdash.append (l.stop.plain.append
    (hblank.append (l.perms_plain.append l.plain))))

theorem scan_text (l : MapLine) :
    scanMapsLine l.text = some (l.start.value,l.stop.value,l.perms) := by
  have hword : IsWord l.perms := by
    rw [perms,IsWord]
    refine ⟨List.cons_ne_nil _ _,?_,?_⟩ <;>
      cases l.r <;> cases l.w <;> cases l.x <;> cases l.shared <;> decide
  have hstart := scanHex_digits (c := '-') l.start.nonempty l.start.hex l.start.fits rfl
    (by decide) (l.stop.digits ++ ' '::(l.perms ++ l.rest))
  have hstop := scanHex_digits (c := ' ') l.stop.nonempty l.stop.hex l.stop.fits rfl
    (by decide) (l.perms ++ l.rest)
  have hperm : scanWord (' '::(l.perms ++ l.rest)) = some (l.perms,l.rest) :=
    scanWord_append (g := [' ']) rfl hword l.sep
  simp [scanMapsLine,text,hstart,hstop,hperm,HexNumber.value]

theorem skipped_of_isStack (h : l.isStack = true) : l.skipped = true := by
  have hpath : l.path = "[stack]".toList := beq_iff_eq.mp h
  have hin : STR_STACK <:+: l.path := by
    rw [hpath]
    decide
  have hsuffix : l.path <:+ l.rest := (List.dropWhile_suffix _).trans (skipWords_suffix 3 l.rest)
  have hrest : l.rest <:+ l.text := by
    refine ⟨l.start.digits ++ '-'::(l.stop.digits ++ ' '::l.perms),?_⟩
    simp [text]
  exact decide_eq_true (hin.trans (hsuffix.trans hrest).isInfix)

theorem permAt_write (junk : ℕ → Char) (l : MapLine) :
    permAt junk l.perms 1 = 'w' ↔ l.w = true := by
  simp only [permAt,perms]
  cases l.w <;> simp

/-- The fourth letter, which the code tests for execution, tells whether a range is shared. -/
theorem segmentOf_perms (junk : ℕ → Char) (l : MapLine) :
    segmentOf junk l.start.value l.stop.value l.perms = l.recorded := by
  have hr : permAt junk l.perms 0 = 'r' ↔ l.r = true := by
    simp only [permAt,perms]
    cases l.r <;> simp
  have hx : permAt junk l.perms 3 ≠ 'x' := by
    simp only [permAt,perms]
    cases l.shared <;> simp
  simp only [segmentOf,permAt_write,hr,if_neg hx]
  exact congrArg (Segment.mk l.start.value l.stop.value l.len) BitVec.or_zero

theorem segment_eq_recorded (l : MapLine) : l.segment = l.recorded ↔ l.x = false := by
  simp only [segment,recorded,Segment.mk.injEq,true_and,flags]
  cases l.x <;> cases l.w <;> cases l.r <;> decide

end MapLine

end Line

section Loop
variable {junk : ℕ → Char} {mmap : Word → Word}

theorem prepareLoop_line (l : MapLine) (n : ℕ) (p2 : List Char) (segs : List Segment)
    (writable : CInt) : prepareLoop junk mmap (n+1) (l.text ++ '\n'::p2) segs writable =
      if l.skipped then prepareLoop junk mmap n p2 segs writable
      else if formatDefined l.text = false then .undefined
      else prepareLoop junk mmap n p2 (segs ++ [l.recorded]) (l.count writable) := by
  have hall : ∀ c ∈ l.text, (c != '\n') = true := fun c hc =>
    bne_iff_ne.mpr fun h => l.text_plain.1 (h ▸ hc)
  have hline : (l.text ++ '\n'::p2).takeWhile (· != '\n') = l.text := takeWhile_stop hall rfl p2
  have hnext : (l.text ++ '\n'::p2).dropWhile (· != '\n') = '\n'::p2 :=
    dropWhile_stop hall rfl p2
  have hshort : ¬16 ≤ l.perms.length := by simp [MapLine.perms]
  rw [prepareLoop,if_neg (by simp),if_neg (by simp)]
  simp only [hline,hnext,List.tail_cons,l.scan_text,if_neg hshort,MapLine.segmentOf_perms,
    MapLine.permAt_write,MapLine.skipped,decide_eq_true_eq]
  rfl

/-- The loop over whole lines: those with the word of the stack are passed over, and a
format that cannot be followed ends it. -/
theorem prepareLoop_lines (seen : List MapLine) (n : ℕ) (tail : List Char) (segs : List Segment)
    (writable : CInt) :
    prepareLoop junk mmap (seen.length+n) (mapsText seen ++ tail) segs writable =
      if ∀ l ∈ seen, l.skipped ∨ formatDefined l.text then
        prepareLoop junk mmap n tail
          (segs ++ (seen.filter fun l => !l.skipped).map MapLine.recorded)
          ((seen.filter fun l => !l.skipped).foldl (fun n l => l.count n) writable)
      else .undefined := by
  induction seen generalizing segs writable with
  | nil => simp [mapsText]
  | cons l seen ih =>
    have htext : mapsText (l::seen) ++ tail = l.text ++ '\n'::(mapsText seen ++ tail) := by
      simp [mapsText]
    rw [htext,List.length_cons,Nat.add_right_comm,prepareLoop_line,ih,ih]
    simp only [List.forall_mem_cons]
    by_cases hskip : l.skipped = true
    · simp only [hskip,if_true,true_or,true_and,Bool.not_true,Bool.false_eq_true,not_false_eq_true,
        List.filter_cons_of_neg]
    · have hkeep : (l::seen).filter (fun l => !l.skipped) = l::seen.filter fun l => !l.skipped :=
        List.filter_cons_of_pos (by simpa using hskip)
      rw [hkeep]
      cases hformat : formatDefined l.text with
      | false => simp [hskip]
      | true =>
        simp only [hskip,if_false,Bool.true_eq_false,or_true,true_and,List.map_cons,
          List.foldl_cons,List.append_assoc,List.singleton_append,Bool.false_eq_true]

theorem length_le_mapsText (lines : List MapLine) : lines.length ≤ (mapsText lines).length := by
  induction lines with
  | nil => exact Nat.zero_le _
  | cons l lines ih =>
    rw [mapsText,List.flatMap_cons,List.length_append,List.length_append,List.length_cons]
    rw [mapsText] at ih
    exact Nat.succ_le_succ ih |>.trans (by simp)

/-- Any part from the start of the map is some whole lines and the start of one more. -/
theorem mapsText_take (lines : List MapLine) (n : ℕ) : ∃ seen unseen tail,
    lines = seen ++ unseen ∧ (mapsText lines).take n = mapsText seen ++ tail ∧ IsPlain tail := by
  induction lines generalizing n with
  | nil => exact ⟨[],[],[],rfl,by simp [mapsText],by decide⟩
  | cons l lines ih =>
    -- the cut is in the first line, or the rest of the lines is cut
    have htext : mapsText (l::lines) = (l.text ++ ['\n']) ++ mapsText lines := rfl
    by_cases hn : n ≤ l.text.length
    · refine ⟨[],l::lines,l.text.take n,rfl,?_,?_⟩
      · rw [htext,List.append_assoc,List.take_append_of_le_length hn]
        rfl
      · exact ⟨fun h => l.text_plain.1 (List.mem_of_mem_take h),
          fun h => l.text_plain.2 (List.mem_of_mem_take h)⟩
    · obtain ⟨seen,unseen,tail,rfl,htake,htail⟩ := ih (n-(l.text ++ ['\n']).length)
      refine ⟨l::seen,unseen,tail,rfl,?_,htail⟩
      have hwhole : (l.text ++ ['\n']).length ≤ n := by
        rw [List.length_append,List.length_singleton]
        omega
      rw [htext,List.take_append,List.take_of_length_le hwhole,htake]
      exact (List.append_assoc _ _ _).symm

theorem nul_notMem_mapsText (lines : List MapLine) : '\x00' ∉ mapsText lines := by
  intro h
  obtain ⟨l,-,hl⟩ := List.mem_flatMap.mp h
  rcases List.mem_append.mp hl with hl | hl
  · exact l.text_plain.2 hl
  · exact absurd hl (by decide)

theorem checkpointPrepare_eq {ready : ℕ} {lines seen : List MapLine} {tail : List Char}
    (hread : (mapsText lines).take (min ready 8191) = mapsText seen ++ tail)
    (htail : IsPlain tail) : checkpointPrepare junk mmap ready (some (mapsText lines)) =
      if mapsText seen ++ tail = [] then .exited
      else if ∀ l ∈ seen, l.skipped ∨ formatDefined l.text then
        if tail ≠ [] then .crashed
        else
          let size := writableLen (seen.filter fun l => !l.skipped)
          let mem := mmap (size.signExtend 64)
          if mem = MAP_FAILED then .exited
          else .returned ((seen.filter fun l => !l.skipped).map MapLine.recorded) mem size
      else .undefined := by
  have hnul : '\x00' ∉ mapsText seen ++ tail := fun h =>
    (List.mem_append.mp h).elim (nul_notMem_mapsText seen) htail.2
  have hfuel : seen.length ≤ (mapsText seen ++ tail).length :=
    (length_le_mapsText seen).trans (by simp)
  obtain ⟨n,hn⟩ : ∃ n, (mapsText seen ++ tail).length+1 = seen.length+(n+1) :=
    ⟨(mapsText seen ++ tail).length-seen.length,by omega⟩
  simp only [checkpointPrepare,hread,cString_eq_self hnul]
  rw [hn,prepareLoop_lines,prepareLoop]
  by_cases hempty : tail = []
  · simp only [hempty,ne_eq,not_true_eq_false,if_false,if_true,List.nil_append]
    rfl
  · simp only [hempty,ne_eq,not_false_eq_true,if_false,if_true,htail.1]

end Loop

section Checkpoint
variable {junk : ℕ → Char} {mmap : Word → Word} {segs segs' : List Segment} {writable size : CInt}
  {mem : Word}

theorem checkpointSize_append (segs : List Segment) (s : Segment) :
    checkpointSize (segs ++ [s]) =
      if s.writable then checkpointSize segs+s.sLen.setWidth 32 else checkpointSize segs := by
  rw [checkpointSize,List.filter_append,List.foldl_append]
  cases hs : s.writable <;> simp [hs,checkpointSize]

theorem segmentOf_writable (junk : ℕ → Char) (start stop : Word) (perm : List Char) :
    (segmentOf junk start stop perm).writable = true ↔ permAt junk perm 1 = 'w' := by
  simp only [Segment.writable,segmentOf]
  split_ifs with hw hr hx hx <;> simp [hw,PROT_WRITE,PROT_READ,PROT_EXEC]

theorem prepareLoop_size {n : ℕ} {p : List Char} (hsize : writable = checkpointSize segs)
    (h : prepareLoop junk mmap n p segs writable = .returned segs' mem size) :
    size = checkpointSize segs' ∧ mem = mmap (size.signExtend 64) ∧ mem ≠ MAP_FAILED := by
  induction n generalizing p segs writable with
  | zero => cases h
  | succ n ih =>
    rw [prepareLoop] at h
    dsimp only at h
    by_cases hend : p = []
    · rw [if_pos hend] at h
      split_ifs at h with hmem
      cases h
      exact ⟨hsize,rfl,hmem⟩
    · rw [if_neg hend] at h
      cases hscan : scanMapsLine (p.takeWhile (· != '\n')) with
      | none =>
        rw [hscan] at h
        split_ifs at h
      | some x =>
        obtain ⟨start,stop,perm⟩ := x
        have hwritable := segmentOf_writable junk start stop perm
        rw [hscan] at h
        dsimp only at h
        split_ifs at h with hcut hlong hstack hformat hw
        · exact ih hsize h
        · refine ih ?_ h
          rw [checkpointSize_append,if_pos (hwritable.mpr hw),hsize]
        · refine ih ?_ h
          rw [checkpointSize_append,if_neg (mt hwritable.mp hw),hsize]

/-- What `checkpoint_prepare` leaves is what the rest of `sthread_init` starts from: memory
for the writable segments, of the length that they have together in an `int`. -/
theorem checkpointPrepare_size {ready : ℕ} {maps : Option (List Char)}
    (h : checkpointPrepare junk mmap ready maps = .returned segs mem size) :
    size = checkpointSize segs ∧ mem = mmap (size.signExtend 64) ∧ mem ≠ MAP_FAILED := by
  cases maps with
  | none => cases h
  | some text =>
    simp only [checkpointPrepare] at h
    split_ifs at h
    exact prepareLoop_size rfl h

end Checkpoint

section Exact
variable {junk : ℕ → Char} {mmap : Word → Word} {ready : ℕ} {lines : List MapLine}

theorem seen_of_recorded {seen unseen : List MapLine}
    (h : ((seen ++ unseen).filter fun l => !l.isStack).map MapLine.segment =
      (seen.filter fun l => !l.skipped).map MapLine.recorded) :
    (∀ l ∈ unseen, l.isStack) ∧ ∀ l ∈ seen, !l.isStack → l.skipped = false ∧ l.x = false := by
  have hkept : (seen.filter fun l => !l.skipped).Sublist (seen.filter fun l => !l.isStack) := by
    refine List.monotone_filter_right seen fun l hl => ?_
    cases hs : l.isStack with
    | false => rfl
    | true => simp [MapLine.skipped_of_isStack hs] at hl
  -- no more lines are kept than the map has, so none of these is missing
  have hlen := congrArg List.length h
  simp only [List.length_map,List.filter_append,List.length_append] at hlen
  have hle := hkept.length_le
  have hunseen : (unseen.filter fun l => !l.isStack) = [] :=
    List.length_eq_zero_iff.mp (by omega)
  have hsame : (seen.filter fun l => !l.skipped) = seen.filter fun l => !l.isStack :=
    hkept.eq_of_length (by omega)
  rw [List.filter_append,hunseen,List.append_nil,← hsame] at h
  refine ⟨fun l hl => ?_,fun l hl hstack => ?_⟩
  · simpa using List.filter_eq_nil_iff.mp hunseen l hl
  · have hmem : l ∈ seen.filter fun l => !l.skipped := by
      rw [hsame]
      exact List.mem_filter.mpr ⟨hl,hstack⟩
    refine ⟨by simpa using (List.mem_filter.mp hmem).2,?_⟩
    exact l.segment_eq_recorded.mp (List.map_inj_left.mp h l hmem)

/-- On a map that is read whole and has plain lines, the code passes over the stack's line
only. -/
theorem filter_skipped {seen : List MapLine} (h : ∀ l ∈ seen, !l.isStack → l.Plain) :
    (seen.filter fun l => !l.skipped) = seen.filter fun l => !l.isStack := by
  refine List.filter_congr fun l hl => ?_
  cases hs : l.isStack with
  | true => rw [MapLine.skipped_of_isStack hs]
  | false => rw [(h l hl (by rw [hs]; rfl)).noStack]

theorem MapsFit.reflects (h : MapsFit mmap ready lines) :
    ReflectsMaps lines (checkpointPrepare junk mmap ready (some (mapsText lines))) := by
  obtain ⟨seen,unseen,rfl,hne,hread,hunseen,hplain,hmem⟩ := h
  have htext : mapsText seen ++ [] ≠ [] := by
    obtain ⟨l,ls,rfl⟩ := List.exists_cons_of_ne_nil hne
    simp [mapsText]
  have hformat : ∀ l ∈ seen, l.skipped ∨ formatDefined l.text := by
    intro l hl
    cases hs : l.isStack with
    | true => exact .inl (MapLine.skipped_of_isStack hs)
    | false => exact .inr (hplain l hl (by rw [hs]; rfl)).format
  rw [← List.append_nil (mapsText seen)] at hread
  rw [checkpointPrepare_eq hread (by decide),if_neg htext,if_pos hformat,filter_skipped hplain]
  simp only [ne_eq,not_true_eq_false,if_false,if_neg hmem]
  have hrest : (unseen.filter fun l => !l.isStack) = [] :=
    List.filter_eq_nil_iff.mpr fun l hl => by simp [hunseen l hl]
  have hsegments : (seen.filter fun l => !l.isStack).map MapLine.recorded =
      (seen.filter fun l => !l.isStack).map MapLine.segment := by
    refine List.map_congr_left fun l hl => ?_
    obtain ⟨hl,hs⟩ := List.mem_filter.mp hl
    exact (l.segment_eq_recorded.mpr (hplain l hl hs).noExec).symm
  rw [ReflectsMaps,List.filter_append,hrest,List.append_nil,hsegments]
  exact ⟨_,_,rfl⟩

theorem ReflectsMaps.fit
    (h : ReflectsMaps lines (checkpointPrepare junk mmap ready (some (mapsText lines)))) :
    MapsFit mmap ready lines := by
  obtain ⟨seen,unseen,tail,rfl,hread,htail⟩ := mapsText_take lines (min ready 8191)
  obtain ⟨mem,size,h⟩ := h
  rw [checkpointPrepare_eq hread htail] at h
  dsimp only at h
  -- every way out of the loop but the last leaves no list of segments
  split_ifs at h with hempty hformat hcut hmem
  rw [not_not] at hcut
  obtain ⟨hsegs,-,-⟩ := MapsResult.returned.inj h
  obtain ⟨hunseen,hseen⟩ := seen_of_recorded hsegs.symm
  have hplain : ∀ l ∈ seen, !l.isStack → l.Plain := by
    intro l hl hs
    obtain ⟨hskip,hx⟩ := hseen l hl hs
    refine ⟨hskip,hx,(hformat l hl).resolve_left ?_⟩
    rw [hskip]
    exact Bool.false_ne_true
  rw [hcut,List.append_nil] at hread hempty
  refine ⟨seen,unseen,rfl,?_,hread,hunseen,hplain,?_⟩
  · rintro rfl
    exact hempty rfl
  · rw [← filter_skipped hplain]
    exact hmem

end Exact

/-- For every memory map, `checkpoint_prepare` records the segments as the map has them
exactly when its one read takes in whole lines, all but the stack's, no other line mentions
a stack, is executable or holds a percent sign to format, and the memory is there. -/
theorem reflects_maps_iff (junk : ℕ → Char) (mmap : Word → Word) (ready : ℕ)
    (lines : List MapLine) :
    ReflectsMaps lines (checkpointPrepare junk mmap ready (some (mapsText lines))) ↔
      MapsFit mmap ready lines :=
  ⟨ReflectsMaps.fit,MapsFit.reflects⟩

def codeLine : MapLine where
  start := ⟨"00400000".toList,by decide,by decide,by decide⟩
  stop := ⟨"00401000".toList,by decide,by decide,by decide⟩
  r := true
  w := false
  x := true
  shared := false
  rest := " 00000000 08:01 17 /bin/true".toList
  sep := by decide
  plain := by decide

def dataLine : MapLine := { codeLine with
  start := ⟨"00601000".toList,by decide,by decide,by decide⟩
  stop := ⟨"00602000".toList,by decide,by decide,by decide⟩
  w := true
  x := false }

def stackLine : MapLine := { dataLine with
  start := ⟨"7ffc0000".toList,by decide,by decide,by decide⟩
  stop := ⟨"7ffe0000".toList,by decide,by decide,by decide⟩
  rest := " 00000000 00:00 0 [stack]".toList
  sep := by decide
  plain := by decide }

/-- A segment with data and the stack are recorded as the map has them. -/
theorem reflects_maps_iff_dataLine :
    ReflectsMaps [dataLine,stackLine] (checkpointPrepare (fun _ => '\x00') (fun _ => 0x10000) 8191
      (some (mapsText [dataLine,stackLine]))) ∧
    MapsFit (fun _ => 0x10000) 8191 [dataLine,stackLine] := by
  have hrun : ReflectsMaps [dataLine,stackLine] (checkpointPrepare (fun _ => '\x00')
      (fun _ => 0x10000) 8191 (some (mapsText [dataLine,stackLine]))) :=
    ⟨0x10000,0x1000,by decide +kernel⟩
  exact ⟨hrun,(reflects_maps_iff _ _ _ _).mp hrun⟩

/-- The code of a program is recorded as memory to read only. -/
theorem code_recorded_readable :
    checkpointPrepare (fun _ => '\x00') (fun _ => 0x10000) 8191
      (some (mapsText [codeLine,dataLine])) = .returned
        [⟨0x400000,0x401000,0x1000,PROT_READ⟩,⟨0x601000,0x602000,0x1000,PROT_WRITE ||| PROT_READ⟩]
        0x10000 0x1000 ∧
    ¬ReflectsMaps [codeLine,dataLine] (checkpointPrepare (fun _ => '\x00') (fun _ => 0x10000) 8191
      (some (mapsText [codeLine,dataLine]))) := by
  have hrun : checkpointPrepare (fun _ => '\x00') (fun _ => 0x10000) 8191
      (some (mapsText [codeLine,dataLine])) = .returned
        [⟨0x400000,0x401000,0x1000,PROT_READ⟩,⟨0x601000,0x602000,0x1000,PROT_WRITE ||| PROT_READ⟩]
        0x10000 0x1000 := by decide +kernel
  refine ⟨hrun,?_⟩
  rw [hrun]
  rintro ⟨mem,size,h⟩
  exact absurd (MapsResult.returned.inj h).1 (by decide +kernel)

end Sthreads
end VmplApps
