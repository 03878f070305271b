import VmplApps.HostPrograms
import VmplApps.PolicyRights

/-! `do_handle_dude`, the code that serves one connection of the web server, as a machine
that goes from one host call to the next with its buffer. What the client gets is the
header and the file, as far as the host takes them, and nothing that the buffer held
before. -/
namespace VmplApps
namespace HttpdWorker

open Sthreads

def text (s : String) : List Byte := s.toList.map fun c => BitVec.ofNat 8 c.toNat

def requestLine : List Byte := text "GET / HTTP/"
def responseHeader : List Byte := text "HTTP/1.0 200 OK\nContent-Type: text/html\n\n"
def indexPath : List Byte := text "index.html"

def O_RDONLY : CInt := 0
def sizeofBuf : ℕ := 4096

inductive Call
  | read (fd : CInt) (size : ℕ)
  | write (fd : CInt) (data : List Byte)
  | open (path : List Byte) (flags : CInt)
  | close (fd : CInt)
  deriving DecidableEq, Repr

/-- `data` is what `read` has put into the buffer. -/
structure Reply where
  ret : CInt
  data : List Byte := []
  deriving DecidableEq, Repr

abbrev Event := Call × Reply

/-- How the host may answer. A read that fails may have written to the buffer. -/
def Allowed : Call → Reply → Prop
  | .read _ size, r => r.data.length ≤ size ∧ (r.ret = -1 ∨ r.ret.toInt = r.data.length)
  | .write _ data, r => r.ret = -1 ∨ 0 ≤ r.ret.toInt ∧ r.ret.toInt ≤ data.length
  | .open _ _, r => r.ret = -1 ∨ 0 ≤ r.ret.toInt
  | .close _, _ => True

instance : (c : Call) → (r : Reply) → Decidable (Allowed c r)
  | .read _ size, r => inferInstanceAs (Decidable
      (r.data.length ≤ size ∧ (r.ret = -1 ∨ r.ret.toInt = r.data.length)))
  | .write _ data, r => inferInstanceAs (Decidable
      (r.ret = -1 ∨ 0 ≤ r.ret.toInt ∧ r.ret.toInt ≤ data.length))
  | .open _ _, r => inferInstanceAs (Decidable (r.ret = -1 ∨ 0 ≤ r.ret.toInt))
  | .close _, _ => inferInstanceAs (Decidable True)

def fill (buf : ℕ → Byte) (data : List Byte) : ℕ → Byte := fun i => data.getD i (buf i)

def contents (buf : ℕ → Byte) (n : ℕ) : List Byte := (List.range n).map buf

/-- `strchr` from position `i` on, in a string that ends within `n` bytes. -/
def strchr (buf : ℕ → Byte) (c : Byte) : ℕ → ℕ → Option ℕ
  | 0, _ => none
  | n+1, i => if buf i = c then some i else if buf i = 0 then none else strchr buf c n (i+1)

def strlen (buf : ℕ → Byte) : ℕ → ℕ → ℕ
  | 0, i => i
  | n+1, i => if buf i = 0 then i else strlen buf n (i+1)

/-- `strncmp` with the bytes that a literal has in the length compared. -/
def strncmp (buf : ℕ → Byte) : ℕ → List Byte → ℤ
  | _, [] => 0
  | i, c::cs =>
    if buf i ≠ c then (buf i).toNat - c.toNat else if c = 0 then 0 else strncmp buf (i+1) cs

def cut (buf : ℕ → Byte) (c : Byte) : ℕ → Byte :=
  match strchr buf c sizeofBuf 0 with
  | some i => Function.update buf i 0
  | none => buf

/-- The host call that comes next. -/
inductive Pc
  | request
  | header
  | opening
  | reading (fd : CInt)
  | sending (fd rc : CInt)
  | closing (fd : CInt)
  | done
  deriving DecidableEq, Repr

structure State where
  pc : Pc
  buf : ℕ → Byte

/-- The worker when it is called; `buf` is what the stack held. -/
def start (buf : ℕ → Byte) : State := ⟨.request,buf⟩

def State.call (s : CInt) (w : State) : Option Call :=
  match w.pc with
  | .request => some (.read s (sizeofBuf - 1))
  | .header => some (.write s (contents w.buf (strlen w.buf sizeofBuf 0)))
  | .opening => some (.open indexPath O_RDONLY)
  | .reading fd => some (.read fd sizeofBuf)
  | .sending _ rc => some (.write s (contents w.buf rc.toNat))
  | .closing fd => some (.close fd)
  | .done => none

def firstLine (buf : ℕ → Byte) (r : Reply) : ℕ → Byte :=
  cut (cut (Function.update (fill buf r.data) r.ret.toNat 0) 13) 10

def State.resume (w : State) (r : Reply) : State :=
  match w.pc with
  | .request =>
    if r.ret.toInt ≤ 0 then ⟨.done,fill w.buf r.data⟩
    else if strncmp (firstLine w.buf r) 0 requestLine ≠ 0 then ⟨.done,firstLine w.buf r⟩
    else ⟨.header,fill (firstLine w.buf r) (responseHeader ++ [0])⟩
  | .header => if r.ret.toInt ≠ strlen w.buf sizeofBuf 0 then ⟨.done,w.buf⟩ else ⟨.opening,w.buf⟩
  | .opening => if r.ret = -1 then ⟨.done,w.buf⟩ else ⟨.reading r.ret,w.buf⟩
  | .reading fd =>
    if 0 < r.ret.toInt then ⟨.sending fd r.ret,fill w.buf r.data⟩ else ⟨.closing fd,fill w.buf r.data⟩
  | .sending fd rc => if r.ret ≠ rc then ⟨.closing fd,w.buf⟩ else ⟨.reading fd,w.buf⟩
  | .closing _ | .done => ⟨.done,w.buf⟩

def Step (s : CInt) (w : State) (e : Event) (w' : State) : Prop :=
  w.call s = some e.1 ∧ Allowed e.1 e.2 ∧ w' = w.resume e.2

/-- What the host has taken for the client, from events with the most recent first. -/
def delivered : List Event → List Byte
  | [] => []
  | (.write _ data,r)::es => delivered es ++ data.take r.ret.toInt.toNat
  | _::es => delivered es

def opened : List Event → Option CInt
  | [] => none
  | (.open _ _,r)::es => if r.ret = -1 then opened es else some r.ret
  | _::es => opened es

def fetched : List Event → List Byte
  | [] => []
  | (.read _ _,r)::es =>
    if (opened es).isSome ∧ 0 < r.ret.toInt then fetched es ++ r.data else fetched es
  | _::es => fetched es

def closes (fd : CInt) (es : List Event) : ℕ := es.countP fun e => e.1 == .close fd

/-- The first read has returned something that starts with the request line. -/
def Accepted (es : List Event) : Prop :=
  ∃ e ∈ es.getLast?, 0 < e.2.ret.toInt ∧ requestLine <+: e.2.data

/-- The host has taken less than it was given. -/
def Short (es : List Event) : Prop :=
  ∃ s data r, (.write s data,r) ∈ es ∧ r.ret.toInt ≠ data.length

def Within (s : CInt) (fd : Option CInt) : Call → Prop
  | .read f n => (f = s ∨ fd = some f) ∧ n ≤ sizeofBuf
  | .write f data => f = s ∧ data.length ≤ sizeofBuf
  | .open path flags => path = indexPath ∧ flags = O_RDONLY
  | .close f => fd = some f

section Buffers
variable {buf : ℕ → Byte} {c : Byte} {pat data : List Byte}

theorem contents_fill (buf : ℕ → Byte) (data rest : List Byte) :
    contents (fill buf (data ++ rest)) data.length = data := by
  refine List.ext_getElem (by simp [contents]) fun i hi hi' => ?_
  simp [contents,fill,List.getElem?_append_left hi',List.getElem?_eq_getElem hi']

theorem strchr_some {n i j : ℕ} (h : strchr buf c n i = some j) : buf j = c := by
  induction n generalizing i with
  | zero => cases h
  | succ n ih =>
    simp only [strchr] at h
    split_ifs at h with heq hzero
    · cases h
      exact heq
    · exact ih h

theorem strlen_stop {n i k : ℕ} (hk : k < n) (hne : ∀ j < k, buf (i+j) ≠ 0) (h0 : buf (i+k) = 0) :
    strlen buf n i = i + k := by
  induction k generalizing n i with
  | zero =>
    obtain ⟨n,rfl⟩ : ∃ m, n = m+1 := ⟨n-1,by omega⟩
    exact if_pos h0
  | succ k ih =>
    obtain ⟨n,rfl⟩ : ∃ m, n = m+1 := ⟨n-1,by omega⟩
    have hfirst : buf i ≠ 0 := hne 0 (Nat.succ_pos k)
    have hnext (j : ℕ) : buf (i+1+j) = buf (i+(j+1)) := congrArg buf (by omega)
    rw [strlen,if_neg hfirst,ih (by omega) (fun j hj => hnext j ▸ hne (j+1) (by omega)) ((hnext k).trans h0)]
    omega

theorem strlen_fill (h0 : (0 : Byte) ∉ data) (hlen : data.length < sizeofBuf) :
    strlen (fill buf (data ++ [0])) sizeofBuf 0 = data.length := by
  refine (strlen_stop hlen (fun j hj => ?_) ?_).trans (Nat.zero_add _)
  · simp only [fill,Nat.zero_add]
    rw [List.getD_eq_getElem?_getD,List.getElem?_append_left hj,List.getElem?_eq_getElem hj,
      Option.getD_some]
    exact fun h => h0 (h ▸ List.getElem_mem hj)
  · simp [fill]

def Matches (buf : ℕ → Byte) (pat : List Byte) : Prop := ∀ i x, pat[i]? = some x → buf i = x

theorem matches_update {i : ℕ} (h0 : (0 : Byte) ∉ pat) (hi : buf i ∉ pat) :
    Matches (Function.update buf i 0) pat ↔ Matches buf pat := by
  constructor
  · intro h j x hx
    by_cases hj : j = i
    · subst hj
      have hzero := h j x hx
      rw [Function.update_self] at hzero
      exact absurd (hzero ▸ List.mem_of_getElem? hx) h0
    · rw [← h j x hx,Function.update_of_ne hj]
  · intro h j x hx
    by_cases hj : j = i
    · subst hj
      exact absurd (h j x hx ▸ List.mem_of_getElem? hx) hi
    · rw [Function.update_of_ne hj]
      exact h j x hx

theorem matches_cut (h0 : (0 : Byte) ∉ pat) (hc : c ∉ pat) :
    Matches (cut buf c) pat ↔ Matches buf pat := by
  unfold cut
  split
  · rename_i i hi
    exact matches_update h0 (strchr_some hi ▸ hc)
  · rfl

theorem strncmp_iff (h0 : (0 : Byte) ∉ pat) (i : ℕ) :
    strncmp buf i pat = 0 ↔ Matches (fun j => buf (i+j)) pat := by
  induction pat generalizing i with
  | nil => exact ⟨fun _ j x hx => by simp at hx,fun _ => rfl⟩
  | cons x xs ih =>
    have hx0 : x ≠ 0 := fun h => h0 (h ▸ List.mem_cons_self)
    have hrest := ih (fun h => h0 (List.mem_cons_of_mem x h)) (i+1)
    have hnext (j : ℕ) : buf (i+1+j) = buf (i+(j+1)) := congrArg buf (by omega)
    have hcons : Matches (fun j => buf (i+j)) (x::xs) ↔
        buf i = x ∧ Matches (fun j => buf (i+1+j)) xs := by
      constructor
      · intro h
        exact ⟨h 0 x rfl,fun j y hy => (hnext j).trans (h (j+1) y hy)⟩
      · rintro ⟨hx,h⟩ j y hy
        cases j with
        | zero => exact hx.trans (Option.some.inj hy)
        | succ j => exact (hnext j).symm.trans (h j y hy)
    rw [hcons,← hrest,strncmp]
    split_ifs with hne
    · refine iff_of_false (fun h => hne (BitVec.eq_of_toNat_eq ?_)) fun h => hne h.1
      omega
    · exact ⟨fun h => ⟨not_not.mp hne,h⟩,fun h => h.2⟩

/-- What has been read, ended behind its last byte, starts with the line exactly if the
data does. -/
theorem matches_read (h0 : (0 : Byte) ∉ pat) :
    Matches (Function.update (fill buf data) data.length 0) pat ↔ pat <+: data := by
  rw [List.prefix_iff_getElem?]
  constructor
  · intro h i hi
    have hx : pat[i]? = some pat[i] := List.getElem?_eq_getElem hi
    -- the end of the string is not in the line
    have hlt : i < data.length := by
      by_contra hge
      have hlen : data.length < pat.length := by omega
      have hend := h data.length _ (List.getElem?_eq_getElem hlen)
      rw [Function.update_self] at hend
      exact h0 (hend ▸ List.getElem_mem hlen)
    have hbyte := h i _ hx
    rw [Function.update_of_ne (by omega)] at hbyte
    simp only [fill,List.getD_eq_getElem?_getD,List.getElem?_eq_getElem hlt,Option.getD_some] at hbyte
    rw [List.getElem?_eq_getElem hlt,hbyte]
  · intro h i x hx
    obtain ⟨hi,rfl⟩ := List.getElem?_eq_some_iff.mp hx
    have hdata := h i hi
    obtain ⟨hlt,-⟩ := List.getElem?_eq_some_iff.mp hdata
    rw [Function.update_of_ne (by omega),fill,List.getD_eq_getElem?_getD,hdata,Option.getD_some]

theorem toNat_eq_length {r : Reply} (hlen : r.ret.toInt = r.data.length) :
    r.ret.toNat = r.data.length := by
  have hbound : r.ret.toInt ≤ (r.data.length : ℕ) := hlen.le
  obtain ⟨-,hnat⟩ := toNat_of_toInt (by omega) hbound
  omega

theorem contents_read (buf : ℕ → Byte) {r : Reply} (hlen : r.ret.toInt = r.data.length) :
    contents (fill buf r.data) r.ret.toNat = r.data := by
  rw [toNat_eq_length hlen]
  simpa using contents_fill buf r.data []

/-- The request is recognised by its first bytes, wherever its line ends. -/
theorem firstLine_iff {r : Reply} (hlen : r.ret.toInt = r.data.length) :
    strncmp (firstLine buf r) 0 requestLine = 0 ↔ requestLine <+: r.data := by
  have h0 : (0 : Byte) ∉ requestLine := by decide
  rw [strncmp_iff h0,firstLine,toNat_eq_length hlen]
  simp only [Nat.zero_add]
  rw [matches_cut h0 (by decide),matches_cut h0 (by decide),matches_read h0]

theorem header_strlen : strlen (fill buf (responseHeader ++ [0])) sizeofBuf 0 = responseHeader.length :=
  strlen_fill (by decide) (by decide)

theorem header_contents : contents (fill buf (responseHeader ++ [0]))
    (strlen (fill buf (responseHeader ++ [0])) sizeofBuf 0) = responseHeader := by
  rw [header_strlen,contents_fill]

theorem contents_length (buf : ℕ → Byte) (n : ℕ) : (contents buf n).length = n := by simp [contents]

theorem Allowed.read_length {fd : CInt} {n : ℕ} {r : Reply} (h : Allowed (.read fd n) r)
    (hpos : 0 < r.ret.toInt) : r.ret.toInt = r.data.length := by
  rcases h.2 with hneg | hlen
  · rw [hneg] at hpos
    exact absurd hpos (by decide)
  · exact hlen

end Buffers

section Responses
variable {s : CInt} {w w' : State} {c : Call} {r : Reply} {e : Event} {es : List Event}
  {out file : List Byte} {fd : Option CInt} {f : CInt}

theorem Accepted.cons (h : Accepted es) (e : Event) : Accepted (e::es) := by
  obtain ⟨x,hx,hrest⟩ := h
  refine ⟨x,?_,hrest⟩
  rw [List.getLast?_cons,Option.mem_def.mp hx]
  rfl

theorem accepted_singleton : Accepted [e] ↔ 0 < e.2.ret.toInt ∧ requestLine <+: e.2.data := by
  simp [Accepted]

theorem Within.mono (h : Within s none c) (fd : Option CInt) : Within s fd c := by
  cases c with
  | read f n =>
    obtain ⟨hf | hf,hn⟩ := h
    · exact ⟨.inl hf,hn⟩
    · cases hf
  | write f data | «open» path flags => exact h
  | close f => cases h

/-- What a worker has done that has accepted its request: `out` is delivered, `file` read
from the descriptor `fd`, and `gone` the descriptor that has been closed. -/
structure Sent (s : CInt) (es : List Event) (out file : List Byte) (fd gone : Option CInt) : Prop where
  accepted : Accepted es
  delivered : delivered es = out
  fetched : fetched es = file
  opened : opened es = fd
  closes : ∀ f, closes f es = if gone = some f then 1 else 0
  within : ∀ e ∈ es, Within s fd e.1

theorem closes_cons (hc : c ≠ .close f) : closes f ((c,r)::es) = closes f es := by
  simp [closes,hc]

theorem Sent.wrote (h : Sent s es out file fd none) (data : List Byte)
    (hlen : data.length ≤ sizeofBuf) (r : Reply) :
    Sent s ((.write s data,r)::es) (out ++ data.take r.ret.toInt.toNat) file fd none where
  accepted := h.accepted.cons _
  delivered := by rw [HttpdWorker.delivered,h.delivered]
  fetched := h.fetched
  opened := h.opened
  closes f := (closes_cons Call.noConfusion).trans (h.closes f)
  within := List.forall_mem_cons.mpr ⟨⟨rfl,hlen⟩,h.within⟩

theorem Sent.opens (h : Sent s es out file none none) (r : Reply) :
    Sent s ((.open indexPath O_RDONLY,r)::es) out file (if r.ret = -1 then none else some r.ret) none where
  accepted := h.accepted.cons _
  delivered := h.delivered
  fetched := h.fetched
  opened := by rw [HttpdWorker.opened,h.opened]
  closes f := (closes_cons Call.noConfusion).trans (h.closes f)
  within := List.forall_mem_cons.mpr ⟨⟨rfl,rfl⟩,fun e he => (h.within e he).mono _⟩

theorem Sent.reads (h : Sent s es out file (some f) none) (r : Reply) :
    Sent s ((.read f sizeofBuf,r)::es) out (if 0 < r.ret.toInt then file ++ r.data else file)
      (some f) none where
  accepted := h.accepted.cons _
  delivered := h.delivered
  fetched := by simp [HttpdWorker.fetched,h.opened,h.fetched]
  opened := h.opened
  closes f := (closes_cons Call.noConfusion).trans (h.closes f)
  within := List.forall_mem_cons.mpr ⟨⟨.inr rfl,le_rfl⟩,h.within⟩

theorem Sent.closed (h : Sent s es out file (some f) none) (r : Reply) :
    Sent s ((.close f,r)::es) out file (some f) (some f) where
  accepted := h.accepted.cons _
  delivered := h.delivered
  fetched := h.fetched
  opened := h.opened
  closes f' := by
    have hold : es.countP (fun e => e.1 == .close f') = 0 := h.closes f'
    rw [HttpdWorker.closes,List.countP_cons,hold]
    simp
  within := List.forall_mem_cons.mpr ⟨rfl,h.within⟩

/-- All that has been read is delivered, unless the host has taken less. -/
def Whole (out file : List Byte) (es : List Event) : Prop :=
  out <+: responseHeader ++ file ∧ (out = responseHeader ++ file ∨ Short es)

inductive Stage (s : CInt) : State → List Event → Prop
  | request {buf} : Stage s ⟨.request,buf⟩ []
  | rejected {buf r} : ¬Accepted [(.read s (sizeofBuf - 1),r)] →
      Stage s ⟨.done,buf⟩ [(.read s (sizeofBuf - 1),r)]
  | header {buf es} : Sent s es [] [] none none →
      strlen buf sizeofBuf 0 = responseHeader.length →
      contents buf responseHeader.length = responseHeader → Stage s ⟨.header,buf⟩ es
  | opening {buf es} : Sent s es responseHeader [] none none → Stage s ⟨.opening,buf⟩ es
  | reading {buf es f file} : Sent s es (responseHeader ++ file) file (some f) none →
      Stage s ⟨.reading f,buf⟩ es
  | sending {buf es f file} {rc : CInt} :
      Sent s es (responseHeader ++ file) (file ++ contents buf rc.toNat) (some f) none →
      0 < rc.toInt → rc.toInt ≤ sizeofBuf → Stage s ⟨.sending f rc,buf⟩ es
  | closing {buf es f out file} : Sent s es out file (some f) none → Whole out file es →
      Stage s ⟨.closing f,buf⟩ es
  | ended {buf es out file fd} : Sent s es out file fd fd → Whole out file es → Stage s ⟨.done,buf⟩ es

theorem Stage.requested {buf : ℕ → Byte} (h : Allowed (.read s (sizeofBuf - 1)) r) :
    Stage s (State.resume ⟨.request,buf⟩ r) [(.read s (sizeofBuf - 1),r)] := by
  unfold State.resume
  dsimp only
  split_ifs with hneg hne
  · refine .rejected fun hacc => ?_
    have hpos : 0 < r.ret.toInt := (accepted_singleton.mp hacc).1
    omega
  · refine .rejected fun hacc => ?_
    obtain ⟨hpos,hline⟩ := accepted_singleton.mp hacc
    exact hne ((firstLine_iff (h.read_length hpos)).mpr hline)
  · have hpos : 0 < r.ret.toInt := by omega
    have hline := (firstLine_iff (h.read_length hpos)).mp (not_not.mp hne)
    refine .header ⟨accepted_singleton.mpr ⟨hpos,hline⟩,rfl,?_,rfl,fun f => ?_,?_⟩ header_strlen
      (contents_fill _ _ [0])
    · simp [fetched,opened]
    · simp [closes]
    · simp [Within]

theorem take_all {data : List Byte} {r : Reply} (h : r.ret.toInt = data.length) :
    data.take r.ret.toInt.toNat = data := by
  rw [h,Int.toNat_natCast]
  exact List.take_length

theorem Stage.wroteHeader {buf : ℕ → Byte} (h : Sent s es [] [] none none)
    (hlen : strlen buf sizeofBuf 0 = responseHeader.length) (r : Reply) :
    Stage s (State.resume ⟨.header,buf⟩ r) ((.write s responseHeader,r)::es) := by
  have hsent := h.wrote responseHeader (by decide) r
  unfold State.resume
  dsimp only
  rw [hlen]
  split_ifs with hne
  · refine .ended hsent ⟨?_,.inr ⟨s,responseHeader,r,List.mem_cons_self,hne⟩⟩
    simpa using List.take_prefix _ responseHeader
  · rw [List.nil_append,take_all (not_not.mp hne)] at hsent
    exact .opening hsent

theorem Stage.sent {buf : ℕ → Byte} {rc : CInt}
    (h : Sent s es (responseHeader ++ file) (file ++ contents buf rc.toNat) (some f) none)
    (hpos : 0 < rc.toInt) (hmax : rc.toInt ≤ sizeofBuf) (r : Reply) :
    Stage s (State.resume ⟨.sending f rc,buf⟩ r) ((.write s (contents buf rc.toNat),r)::es) := by
  have hnat : rc.toInt = rc.toNat := (toNat_of_toInt hpos.le hmax).2
  have hlen : (contents buf rc.toNat).length = rc.toNat := contents_length buf _
  have hsent := h.wrote (contents buf rc.toNat) (by omega) r
  unfold State.resume
  dsimp only
  split_ifs with hne
  · refine .closing hsent ⟨?_,.inr ⟨s,_,r,List.mem_cons_self,fun heq => hne ?_⟩⟩
    · rw [← List.append_assoc]
      exact (List.prefix_append_right_inj _).mpr ( List.take_prefix _ _)
    · exact BitVec.eq_of_toInt_eq (by rw [heq,hlen,hnat])
  · have heq : r.ret = rc := not_not.mp hne
    rw [take_all (by rw [heq,hlen,hnat]),List.append_assoc] at hsent
    exact .reading hsent

theorem Stage.read {buf : ℕ → Byte} (h : Sent s es (responseHeader ++ file) file (some f) none)
    (hallowed : Allowed (.read f sizeofBuf) r) :
    Stage s (State.resume ⟨.reading f,buf⟩ r) ((.read f sizeofBuf,r)::es) := by
  have hsent := h.reads r
  unfold State.resume
  dsimp only
  split_ifs with hpos
  · have hlen := hallowed.read_length hpos
    have hmax := hallowed.1
    rw [if_pos hpos] at hsent
    rw [← contents_read buf hlen] at hsent
    exact .sending hsent hpos (by omega)
  · rw [if_neg hpos] at hsent
    exact .closing hsent ⟨List.prefix_rfl,.inl rfl⟩

theorem Short.cons (h : Short es) (e : Event) : Short (e::es) := by
  obtain ⟨s,data,r,hmem,hne⟩ := h
  exact ⟨s,data,r,List.mem_cons_of_mem e hmem,hne⟩

theorem Stage.step (hx : Stage s w es) (h : Step s w e w') : Stage s w' (e::es) := by
  obtain ⟨hcall,hallowed,rfl⟩ := h
  obtain ⟨c,r⟩ := e
  cases hx with
  | request =>
    obtain rfl : .read s (sizeofBuf - 1) = c := Option.some.inj hcall
    exact .requested hallowed
  | rejected | ended => cases hcall
  | @header buf es hsent hlen hbuf =>
    obtain rfl : .write s (contents buf (strlen buf sizeofBuf 0)) = c := Option.some.inj hcall
    rw [hlen,hbuf]
    exact .wroteHeader hsent hlen r
  | opening hsent =>
    obtain rfl : .open indexPath O_RDONLY = c := Option.some.inj hcall
    have hopen := hsent.opens r
    unfold State.resume
    dsimp only
    split_ifs with hfail
    · rw [if_pos hfail] at hopen
      exact .ended hopen ⟨by simp,.inl (List.append_nil _).symm⟩
    · rw [if_neg hfail] at hopen
      rw [← List.append_nil responseHeader] at hopen
      exact .reading hopen
  | @reading buf es f file hsent =>
    obtain rfl : .read f sizeofBuf = c := Option.some.inj hcall
    exact .read hsent hallowed
  | @sending buf es f file rc hsent hpos hmax =>
    obtain rfl : .write s (contents buf rc.toNat) = c := Option.some.inj hcall
    exact .sent hsent hpos hmax r
  | @closing buf es f out file hsent hwhole =>
    obtain rfl : .close f = c := Option.some.inj hcall
    exact .ended (hsent.closed r) ⟨hwhole.1,hwhole.2.imp id fun h => h.cons _⟩

theorem Stage.of_runs {buf : ℕ → Byte} (h : Runs (Step s) (start buf) es w) : Stage s w es :=
  h.invariant (I := Stage s) .request fun _ _ _ _ => Stage.step

theorem Stage.within (h : Stage s w es) : ∀ e ∈ es, Within s (opened es) e.1 := by
  cases h with
  | request => simp
  | rejected => simp [Within]
  | header h | opening h | reading h | sending h _ _ | closing h _ | ended h _ =>
    rw [h.opened]
    exact h.within

theorem Stage.delivered (h : Stage s w es) : delivered es <+: responseHeader ++ fetched es := by
  cases h with
  | request | rejected => exact List.nil_prefix
  | header h | opening h | reading h | sending h _ _ => simp [h.delivered,h.fetched]
  | closing h hwhole | ended h hwhole =>
    rw [h.delivered,h.fetched]
    exact hwhole.1

theorem Stage.complete (h : Stage s w es) (hdone : w.pc = .done) (hacc : Accepted es) :
    HttpdWorker.delivered es = responseHeader ++ fetched es ∨ Short es := by
  cases h with
  | rejected hno => exact absurd hacc hno
  | ended h hwhole =>
    rw [h.delivered,h.fetched]
    exact hwhole.2
  | _ => cases hdone

theorem Stage.closed_once (h : Stage s w es) (hdone : w.pc = .done) (f : CInt) :
    closes f es = if opened es = some f then 1 else 0 := by
  cases h with
  | rejected => simp [closes,opened]
  | ended h _ => rw [h.closes,h.opened]
  | _ => cases hdone

theorem Stage.single (h : Stage s w es) (hno : ¬Accepted es) : es.length ≤ 1 := by
  cases h with
  | request => exact zero_le_one
  | rejected => exact le_rfl
  | header h | opening h | reading h | sending h _ _ | closing h _ | ended h _ =>
    exact absurd h.accepted hno

/-- `do_handle_dude` for every client, file and host: the client gets the header and what
was read from the file, up to where the host took less, and nothing without a request
that starts with the line; all calls are about the connection and the one file, within
the buffer; and at the end the file is closed exactly once if it was opened. -/
theorem response_exact {buf : ℕ → Byte} (h : Runs (Step s) (start buf) es w) :
    delivered es <+: responseHeader ++ fetched es ∧
    (¬Accepted es → es.length ≤ 1) ∧
    (∀ e ∈ es, Within s (opened es) e.1) ∧
    (w.pc = .done → ∀ f, closes f es = if opened es = some f then 1 else 0) ∧
    (w.pc = .done → Accepted es → delivered es = responseHeader ++ fetched es ∨ Short es) := by
  have hstage := Stage.of_runs h
  exact ⟨hstage.delivered,hstage.single,hstage.within,hstage.closed_once,hstage.complete⟩

/-- The calls do not show what the buffer held: from here on they are the same. -/
theorem resume_alike {v : State} (hpc : v.pc = w.pc) (hcall : v.call s = w.call s)
    (hc : w.call s = some c) (h : Allowed c r) :
    (v.resume r).pc = (w.resume r).pc ∧ (v.resume r).call s = (w.resume r).call s := by
  obtain ⟨pc,buf⟩ := w
  obtain ⟨pc',buf'⟩ := v
  obtain rfl : pc' = pc := hpc
  cases pc' with
  | request =>
    obtain rfl : .read s (sizeofBuf - 1) = c := Option.some.inj hc
    by_cases hneg : r.ret.toInt ≤ 0
    · simp [State.resume,State.call,hneg]
    have hline (b : ℕ → Byte) : strncmp (firstLine b r) 0 requestLine = 0 ↔ requestLine <+: r.data :=
      firstLine_iff (h.read_length (not_le.mp hneg))
    by_cases hreq : requestLine <+: r.data
    · have hheader (b : ℕ → Byte) : State.resume ⟨.request,b⟩ r =
          ⟨.header,fill (firstLine b r) (responseHeader ++ [0])⟩ := by
        unfold State.resume
        dsimp only
        rw [if_neg hneg,if_neg (not_not.mpr ((hline b).mpr hreq))]
      simp only [hheader,State.call,header_contents,and_self]
    · simp [State.resume,State.call,hneg,hline,hreq]
  | header =>
    have hlen : strlen buf' sizeofBuf 0 = strlen buf sizeofBuf 0 := by
      have hdata := (Call.write.inj (Option.some.inj hcall)).2
      simpa only [contents_length] using congrArg List.length hdata
    by_cases hret : r.ret.toInt = strlen buf sizeofBuf 0
    · simp [State.resume,State.call,hlen,hret]
    · simp [State.resume,State.call,hlen,hret]
  | opening =>
    unfold State.resume
    dsimp only
    split_ifs <;> exact ⟨rfl,rfl⟩
  | reading f =>
    obtain rfl : .read f sizeofBuf = c := Option.some.inj hc
    by_cases hpos : 0 < r.ret.toInt
    · simp [State.resume,State.call,hpos,contents_read _ (h.read_length hpos)]
    · simp [State.resume,State.call,hpos]
  | sending f rc => by_cases hret : r.ret = rc <;> simp [State.resume,State.call,hret]
  | closing f | done => exact ⟨rfl,rfl⟩

/-- What the stack held before is never sent: whatever it was, the worker makes the same
calls with the same bytes when it gets the same replies. -/
theorem stale_bytes_stay {buf : ℕ → Byte} (h : Runs (Step s) (start buf) es w) (buf' : ℕ → Byte) :
    ∃ v, Runs (Step s) (start buf') es v ∧ v.pc = w.pc ∧ v.call s = w.call s := by
  induction h with
  | start => exact ⟨start buf',.start _,rfl,rfl⟩
  | next _ hstep ih =>
    obtain ⟨v,hruns,hpc,hcall⟩ := ih
    obtain ⟨hc,hallowed,rfl⟩ := hstep
    exact ⟨v.resume _,.next hruns ⟨hcall.trans hc,hallowed,rfl⟩,resume_alike hpc hcall hc hallowed⟩

end Responses

section Sample

def advance (s : CInt) (w : State) (e : Event) : Except Unit State :=
  if w.call s = some e.1 ∧ Allowed e.1 e.2 then .ok (w.resume e.2) else .error ()

theorem step_of_advance {s : CInt} {w w' : State} {e : Event} (h : advance s w e = .ok w') :
    Step s w e w' := by
  unfold advance at h
  split_ifs at h with hc
  exact ⟨hc.1,hc.2,(Except.ok.inj h).symm⟩

def smallFile : List Event := [
  (.close 4,⟨0,[]⟩),(.read 4 4096,⟨0,[]⟩),(.write 3 (text "hi"),⟨2,[]⟩),
  (.read 4 4096,⟨2,text "hi"⟩),(.open indexPath O_RDONLY,⟨4,[]⟩),
  (.write 3 responseHeader,⟨41,[]⟩),(.read 3 4095,⟨18,text "GET / HTTP/1.0\x0d\n\x0d\n"⟩)]

theorem smallFile_runs : ∃ w, Runs (Step 3) (start fun _ => 0) smallFile w ∧ w.pc = .done := by
  have hplay : (follow (advance 3) (fun _ _ => true) (start fun _ => 0) smallFile).any
      (fun w => w.pc == .done) = true := by decide +kernel
  obtain ⟨w,hruns,hpc⟩ := exists_of_follow hplay
  exact ⟨w,hruns.mono fun _ _ _ h => step_of_advance h.2,beq_iff_eq.mp hpc⟩

theorem response_exact_smallFile : ∃ w, Runs (Step 3) (start fun _ => 0) smallFile w ∧
    w.pc = .done ∧ fetched smallFile = text "hi" ∧ closes 4 smallFile = 1 ∧
    delivered smallFile <+: responseHeader ++ fetched smallFile := by
  obtain ⟨w,hruns,hpc⟩ := smallFile_runs
  obtain ⟨hout,-,-,hclose,-⟩ := response_exact hruns
  exact ⟨w,hruns,hpc,by decide +kernel,(hclose hpc 4).trans (by decide +kernel),hout⟩

theorem stale_bytes_stay_smallFile :
    ∃ v, Runs (Step 3) (start fun _ => 0xff) smallFile v ∧ v.pc = .done := by
  obtain ⟨w,hruns,hpc⟩ := smallFile_runs
  obtain ⟨v,hruns',hpc',-⟩ := stale_bytes_stay hruns fun _ => 0xff
  exact ⟨v,hruns',hpc'.trans hpc⟩

end Sample

end HttpdWorker
end VmplApps
