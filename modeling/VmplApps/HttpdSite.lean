import VmplApps.HttpdServer
import VmplApps.HttpdWorker
import VmplApps.SthreadSlots

/-! The web server in its protected mode with `do_handle_dude` as the worker's code. The
worker's calls go through the kernel of the threads, whose memory check wants every
argument on a page that may be written, also the name of a file. That name is a literal:
where literals are mapped read-only, `open` is always blocked, and no client ever gets
more than the header. -/
namespace VmplApps
namespace HttpdWorker

open Sthreads

def readOnly (t : LeafTable Word) (p : ℕ) : Bool :=
  t.leaves.any fun x => x.1 == p && x.2 &&& PTE_P != 0 && x.2 &&& PTE_W == 0

structure ReadOnlyIn (p : ℕ) (k : Kernel) : Prop where
  master : readOnly k.pgroot p = true
  threads : ∀ s ∈ k.sthreads, readOnly s.table p = true

/-- The current thread reads the text at an address, with a terminator behind it. -/
def readsText (boot : Boot) (m : Machine) (ptr : Word) (name : List Byte) : Bool :=
  (m.kernel.ksCurrent.bind m.kernel.find).all fun s => (List.range (name.length + 1)).all fun i =>
    (translate boot (loadedTable m.kernel s) (ptr + BitVec.ofNat 64 i).toNat).any fun a =>
      m.kernel.mem a == (name ++ [0]).getD i 0

section ReadOnly
variable {boot : Boot} {k : Kernel} {m m' : Machine} {l : Label} {t t' : LeafTable Word} {p : ℕ}

theorem readOnly_iff : readOnly t p = true ↔
    ∃ e, (p,e) ∈ t.leaves ∧ e &&& PTE_P ≠ 0 ∧ e &&& PTE_W = 0 := by
  simp only [readOnly,List.any_eq_true,Bool.and_eq_true,beq_iff_eq,bne_iff_ne]
  constructor
  · rintro ⟨⟨q,e⟩,he,⟨rfl,hp⟩,hw⟩
    exact ⟨e,he,hp,hw⟩
  · rintro ⟨e,he,hp,hw⟩
    exact ⟨(p,e),he,⟨rfl,hp⟩,hw⟩

theorem readOnly_dirtyOnly (h : readOnly t p = true) (hr : LeafTable.Related DirtyOnly t t') :
    readOnly t' p = true := by
  obtain ⟨e,he,hp,hw⟩ := readOnly_iff.mp h
  obtain ⟨e',he',hd⟩ := hr.mem_left he
  have hP : e' &&& PTE_P = e &&& PTE_P := hd.and_eq rfl
  have hW : e' &&& PTE_W = e &&& PTE_W := hd.and_eq rfl
  exact readOnly_iff.mpr ⟨e',he',hP ▸ hp,hW ▸ hw⟩

theorem protectTags_write (addr : Word) {e : Word} (he : e &&& PTE_W = 0) (ws : List Word) :
    protectTags addr e ws &&& PTE_W = 0 := by
  have hor : (e ||| PTE_U) &&& PTE_W = 0 := (Words.or_and_of_disjoint rfl).trans he
  induction ws with
  | nil => exact he
  | cons w ws ih =>
    simp only [protectTags]
    split_ifs
    · exact he
    · rw [BitVec.and_assoc]
      exact BitVec.and_zero
    · exact hor
    · exact ih

theorem protectEntry_write {s : Sthread} {e : Word} (he : e &&& PTE_W = 0) :
    protectEntry boot s p e &&& PTE_W = 0 := by
  have hclear : e &&& ~~~PTE_U &&& PTE_W = 0 := (Words.and_not_and_of_disjoint rfl).trans he
  have hset : (e &&& ~~~PTE_U ||| PTE_U) &&& PTE_W = 0 := (Words.or_and_of_disjoint rfl).trans hclear
  unfold protectEntry
  dsimp only
  split
  · split_ifs
    · exact hclear
    · exact hset
  · refine protectTags_write _ ?_ _
    split_ifs
    · exact hset
    · exact hclear

theorem newSthread_readOnly {sc : Sc} {r : CreateReply} {id : CInt}
    (hwf : ∀ seg ∈ boot.segments, seg.WellFormed)
    (hdata : ∀ seg ∈ boot.segments, seg.writable = true → ¬PageIn p seg.span)
    (h : readOnly k.pgroot p = true) : readOnly (newSthread boot k sc r id).table p = true := by
  obtain ⟨e₀,he₀,hp₀,hw₀⟩ := readOnly_iff.mp h
  have hcov : Covers k.pgroot p 1 := by
    intro q hlo hhi
    obtain rfl : q = p := by omega
    exact ⟨e₀,he₀,hp₀⟩
  have hnew : Covers (newSthread boot k sc r id).table p 1 := newSthread_covers hcov
  obtain ⟨e,he,hp⟩ := hnew p le_rfl (Nat.lt_succ_self p)
  refine readOnly_iff.mpr ⟨e,he,hp,?_⟩
  have hwf' (seg : Segment) (hseg : seg ∈ boot.segments.filter Segment.writable) :
      seg.WellFormed := hwf seg (List.mem_filter.mp hseg).1
  obtain ⟨e₁,he₁,⟨rfl,-⟩ | ⟨⟨seg,hseg,hin⟩,-⟩⟩ := remap_leaf hwf' _ 0 he
  · obtain ⟨e₂,he₂,rfl⟩ := protect_leaf he₁
    obtain rfl : e₂ = e₀ :=
      Option.some.inj ((LeafTable.mem_leaves.mp he₂).symm.trans (LeafTable.mem_leaves.mp he₀))
    split_ifs
    · exact protectEntry_write hw₀
    · exact hw₀
  · obtain ⟨hseg,hwrite⟩ := List.mem_filter.mp hseg
    exact absurd hin (hdata seg hseg hwrite)

theorem ReadOnlyIn.step (hwf : ∀ seg ∈ boot.segments, seg.WellFormed)
    (hdata : ∀ seg ∈ boot.segments, seg.writable = true → ¬PageIn p seg.span)
    (h : ReadOnlyIn p m.kernel) (hremap : ∀ pg, l = .remap pg → readOnly pg p = true)
    (hstep : Sthreads.step boot m l = .ok m') : ReadOnlyIn p m'.kernel := by
  obtain ⟨k₀,hprep,hev⟩ := step_evolves hstep
  have hk : ReadOnlyIn p k₀ := by
    cases hprep with
    | same | tag => exact ⟨h.master,h.threads⟩
    | remap pg => exact ⟨hremap pg rfl,h.threads⟩
    | bump tid sz =>
      rw [smalloc_eq]
      exact ⟨h.master,h.threads⟩
    | @fresh i cb arg r k₁ _ hmalloc _ =>
      have hold : k₁.pgroot = m.kernel.pgroot ∧ k₁.sthreads = m.kernel.sthreads := by
        rw [kmalloc_eq hmalloc]
        exact ⟨rfl,rfl⟩
      have hmaster : readOnly k₁.pgroot p = true := hold.1 ▸ h.master
      refine ⟨hmaster,List.forall_mem_cons.mpr ⟨newSthread_readOnly hwf hdata hmaster,?_⟩⟩
      rw [hold.2]
      exact h.threads
  refine ⟨readOnly_dirtyOnly hk.master hev.pgroot,fun s' hs' => ?_⟩
  obtain ⟨s,hs,hse⟩ := hev.records s' hs'
  exact readOnly_dirtyOnly (hk.threads s hs) hse.table

theorem strlenLoop_text {mem : Mem} {name : List Byte} {fuel : ℕ} {ptr n : Word} (h0 : 0 ∉ name)
    (hfuel : name.length < fuel) (h : ∀ i ≤ name.length, ∃ a,
      translate boot t (ptr + BitVec.ofNat 64 i).toNat = some a ∧ mem a = (name ++ [0]).getD i 0) :
    strlenLoop boot t mem fuel ptr n = some (n + BitVec.ofNat 64 name.length) := by
  induction name generalizing ptr n fuel with
  | nil =>
    obtain ⟨a,ha,hzero⟩ := h 0 le_rfl
    obtain ⟨fuel,rfl⟩ := Nat.exists_eq_succ_of_ne_zero (Nat.ne_of_gt hfuel)
    rw [BitVec.add_zero] at ha
    have hz : mem a = 0 := hzero
    simp [strlenLoop,ha,hz]
  | cons b name ih =>
    obtain ⟨a,ha,hb⟩ := h 0 (Nat.zero_le _)
    obtain ⟨fuel,rfl⟩ := Nat.exists_eq_succ_of_ne_zero (Nat.ne_zero_of_lt hfuel)
    rw [BitVec.add_zero] at ha
    have hne : mem a ≠ 0 := by
      rw [hb]
      exact fun hz => h0 (hz ▸ List.mem_cons_self)
    have hnext : ∀ i ≤ name.length, ∃ a, translate boot t (ptr + 1 + BitVec.ofNat 64 i).toNat = some a ∧
        mem a = (name ++ [0]).getD i 0 :=
      fun i hi => next_byte ptr i ▸ h (i+1) (Nat.succ_le_succ hi)
    have hrest := ih (n := n + 1) (fun hz => h0 (List.mem_cons_of_mem b hz))
      (Nat.lt_of_succ_lt_succ hfuel) hnext
    simp only [strlenLoop,ha,if_neg hne]
    rw [hrest,List.length_cons,next_byte]

theorem pathLength_text {s : Sthread} {ptr : Word} {name : List Byte} (h0 : 0 ∉ name)
    (hlen : name.length < 2^64) (hs : m.kernel.ksCurrent.bind m.kernel.find = some s)
    (h : readsText boot m ptr name = true) :
    pathLength boot m.kernel s ptr = some (BitVec.ofNat 64 name.length) := by
  simp only [readsText,hs,Option.all_some,List.all_eq_true,List.mem_range,Option.any_eq_true,
    beq_iff_eq] at h
  refine (strlenLoop_text h0 hlen fun i hi => h i (Nat.lt_succ_of_le hi)).trans ?_
  exact congrArg some (BitVec.zero_add _)

/-- The check of `open` wants the name on a page that may be written. -/
theorem open_blocked {tf : TrapFrame} {name : List Byte} (h : ReadOnlyIn (tf.rdi.toNat / 4096) m.kernel)
    (hnum : tf.rax.setWidth 32 = SYS_open) (h0 : 0 ∉ name) (hname : readsText boot m tf.rdi name = true)
    (hend : tf.rdi.toNat + name.length < 2^64) : passes boot m tf = none := by
  unfold passes
  split
  · rfl
  · rename_i s hs
    obtain ⟨u,-,hfind⟩ := Option.bind_eq_some_iff.mp hs
    obtain ⟨e,he,hp,hw⟩ := readOnly_iff.mp (h.threads s (Kernel.find_mem hfind).1)
    have hlen := pathLength_text h0 (by omega) hs hname
    have harg : memArg boot m.kernel s (tf.rax.setWidth 32) tf =
        some (tf.rdi,some (BitVec.ofNat 64 name.length)) := (if_pos hnum).trans (by rw [hlen])
    split
    · rename_i s' passed hcheck
      cases checked_of_syscallCheck hcheck with
      | blocked | refused => rfl
      | plain hnone =>
        rw [harg] at hnone
        cases hnone
      | @walked ptr len _ hptr hperm =>
        rw [harg] at hptr
        cases hptr
        have hlen : (BitVec.ofNat 64 name.length).toNat = name.length := by
          rw [BitVec.toNat_ofNat,Nat.mod_eq_of_lt (by omega)]
        have hsum : (tf.rdi + BitVec.ofNat 64 name.length).toNat = tf.rdi.toNat + name.length := by
          rw [Words.add_toNat_exact (by rwa [hlen]),hlen]
        have hwalk : inWalk tf.rdi (tf.rdi + BitVec.ofNat 64 name.length) (tf.rdi.toNat / 4096) e =
            true := inWalk_iff.mpr ⟨⟨le_rfl,by omega⟩,hp⟩
        exact absurd hw ((hasMemPerm_pass hperm).1 _ _ (LeafTable.mem_leaves.mp he) hwalk).2
    · rfl

end ReadOnly

/-- The protected server with the code that its worker runs, on connection `socket`, and
the calls that this worker has made. -/
structure Site where
  server : Httpd.Server
  socket : CInt := 0
  worker : Option State := none
  history : List Event := []

inductive Move
  | server (a : Httpd.Action)
  | create (cb arg : Word) (r : CreateReply) (buf : ℕ → Byte)
  | call (tf : TrapFrame) (host : HostReply) (r : Reply)

/-- The registers with which a call traps. The name of the file is the literal at `path`;
where the buffer lies is left open. -/
def encodes (boot : Boot) (m : Machine) (path : Word) (tf : TrapFrame) : Call → Bool
  | .read fd size => tf.rax == 0 && tf.arg0.setWidth 32 == fd && tf.arg2 == BitVec.ofNat 64 size
  | .write fd data => tf.rax == 1 && tf.arg0.setWidth 32 == fd && tf.arg2 == BitVec.ofNat 64 data.length
  | .open name flags => tf.rax == 2 && tf.rdi == path && readsText boot m path name &&
      tf.arg1.setWidth 32 == flags
  | .close fd => tf.rax == 3 && tf.arg0.setWidth 32 == fd

/-- What happens beside the calls of `do_handle_dude`; when it has returned, its thread
exits. -/
def aside (w : Option State) : Httpd.Action → Bool
  | .call (.create _ _ _ _) => false
  | .run (.syscall tf _) => tf.rax == 666 && w.all fun w => w.pc == .done
  | _ => true

/-- A call that the kernel blocks returns -1 to the worker. What a call reads or writes is
taken from the worker's buffer as its own code sees it; that the host is given the same
bytes is not part of this model. -/
def Site.step (boot : Boot) (path : Word) (x : Site) : Move → Except Fault Site
  | .server a =>
    if aside x.worker a then do
      let y ← Httpd.step boot x.server a
      .ok {x with server := y}
    else .error .notEnabled
  | .create cb arg r buf => do
    let y ← Httpd.step boot x.server (.call (.create 0 cb arg r))
    .ok {server := y,socket := x.server.phase.socket.getD 0,worker := some (start buf)}
  | .call tf host r =>
    match x.worker with
    | none => .error .notEnabled
    | some w =>
      match w.call x.socket with
      | none => .error .notEnabled
      | some c =>
        if encodes boot x.server.machine path tf c && decide (Allowed c r) &&
            ((passes boot x.server.machine tf).isSome || r.ret == -1) then do
          let y ← Httpd.step boot x.server (.run (.syscall tf host))
          .ok {x with server := y,worker := some (w.resume r),history := (c,r)::x.history}
        else .error .notEnabled

/-- The runtime library leaves the page of the literal read-only. -/
def keepsLiteral (path : Word) (_ : Site) : Move → Bool
  | .server (.call (.remap pg)) | .server (.run (.remap pg)) => readOnly pg (path.toNat / 4096)
  | _ => true

def NothingOpened (es : List Event) : Prop :=
  ∀ e ∈ es, ∀ name flags, e.1 = .open name flags → e.2.ret = -1

/-- The page of the literal is read-only, and the worker has run `do_handle_dude` without
opening anything. -/
structure Literal (path : Word) (x : Site) : Prop where
  page : ReadOnlyIn (path.toNat / 4096) x.server.machine.kernel
  idle : x.worker = none → x.history = []
  runs : ∀ w, x.worker = some w → ∃ buf, Runs (Step x.socket) (start buf) x.history w
  opens : NothingOpened x.history

section Protected
variable {boot : Boot} {path : Word} {x y : Site} {a : Move} {es : List Event}

theorem NothingOpened.opened (h : NothingOpened es) : opened es = none := by
  induction es with
  | nil => rfl
  | cons e es ih =>
    have hrest := ih fun e' he' => h e' (List.mem_cons_of_mem e he')
    obtain ⟨c,r⟩ := e
    cases c with
    | «open» name flags =>
      have hfail : r.ret = -1 := h _ List.mem_cons_self name flags rfl
      rw [HttpdWorker.opened,if_pos hfail]
      exact hrest
    | read | write | close => exact hrest

theorem NothingOpened.fetched (h : NothingOpened es) : fetched es = [] := by
  induction es with
  | nil => rfl
  | cons e es ih =>
    have hnone : NothingOpened es := fun e' he' => h e' (List.mem_cons_of_mem e he')
    have hrest := ih hnone
    obtain ⟨c,r⟩ := e
    cases c with
    | read fd size => simp [HttpdWorker.fetched,hnone.opened,hrest]
    | write | «open» | close => exact hrest

theorem server_readOnly {s s' : Httpd.Server} {b : Httpd.Action} {p : ℕ}
    (hwf : ∀ seg ∈ boot.segments, seg.WellFormed)
    (hdata : ∀ seg ∈ boot.segments, seg.writable = true → ¬PageIn p seg.span)
    (h : ReadOnlyIn p s.machine.kernel)
    (hremap : ∀ pg, b = .call (.remap pg) ∨ b = .run (.remap pg) → readOnly pg p = true)
    (hstep : Httpd.step boot s b = .ok s') : ReadOnlyIn p s'.machine.kernel := by
  cases b with
  | accept c =>
    obtain ⟨-,-,rfl⟩ := Httpd.step_accept hstep
    exact h
  | call l =>
    obtain ⟨-,hmoved,-⟩ := Httpd.step_call hstep
    exact h.step hwf hdata (fun pg hl => hremap pg (.inl (hl ▸ rfl))) hmoved.kernel
  | run l =>
    obtain ⟨hmoved,-⟩ := Httpd.step_run hstep
    exact h.step hwf hdata (fun pg hl => hremap pg (.inr (hl ▸ rfl))) hmoved.kernel

theorem open_fails {tf : TrapFrame} {s : Httpd.Server} {c : Call} {r : Reply}
    (h : ReadOnlyIn (path.toNat / 4096) s.machine.kernel) (hend : path.toNat + 10 < 2^64)
    (hname : c = .open indexPath O_RDONLY) (henc : encodes boot s.machine path tf c = true)
    (hans : (passes boot s.machine tf).isSome = true ∨ r.ret = -1) : r.ret = -1 := by
  subst hname
  simp only [encodes,Bool.and_eq_true,beq_iff_eq] at henc
  obtain ⟨⟨⟨hrax,rfl⟩,hname⟩,-⟩ := henc
  have hnone : passes boot s.machine tf = none :=
    open_blocked h (by rw [hrax]; rfl) (by decide) hname hend
  rw [hnone] at hans
  exact hans.resolve_left Bool.false_ne_true

theorem Literal.step (hwf : ∀ seg ∈ boot.segments, seg.WellFormed)
    (hdata : ∀ seg ∈ boot.segments, seg.writable = true → ¬PageIn (path.toNat / 4096) seg.span)
    (hend : path.toNat + 10 < 2^64) (hx : Literal path x) (hkeep : keepsLiteral path x a = true)
    (hstep : Site.step boot path x a = .ok y) : Literal path y := by
  cases a with
  | server b =>
    simp only [Site.step] at hstep
    split_ifs at hstep
    obtain ⟨s,hs,hstep⟩ := bind_ok.mp hstep
    cases hstep
    refine ⟨server_readOnly hwf hdata hx.page (fun pg hb => ?_) hs,hx.idle,hx.runs,hx.opens⟩
    rcases hb with rfl | rfl <;> exact hkeep
  | create cb arg r buf =>
    obtain ⟨s,hs,hstep⟩ := bind_ok.mp hstep
    cases hstep
    refine ⟨server_readOnly hwf hdata hx.page (fun pg hb => ?_) hs,fun _ => rfl,fun w hw => ?_,
      fun e he => absurd he List.not_mem_nil⟩
    · rcases hb with hb | hb <;> cases hb
    · cases hw
      exact ⟨buf,.start _⟩
  | call tf host r =>
    simp only [Site.step] at hstep
    split at hstep
    · cases hstep
    rename_i w hw
    split at hstep
    · cases hstep
    rename_i c hc
    split_ifs at hstep with hok
    simp only [Bool.and_eq_true,Bool.or_eq_true,decide_eq_true_eq,beq_iff_eq] at hok
    obtain ⟨⟨henc,hallowed⟩,hans⟩ := hok
    obtain ⟨s,hs,hstep⟩ := bind_ok.mp hstep
    cases hstep
    obtain ⟨buf,hruns⟩ := hx.runs w hw
    have hnext : Runs (Step x.socket) (start buf) ((c,r)::x.history) (w.resume r) :=
      .next hruns ⟨hc,hallowed,rfl⟩
    refine ⟨server_readOnly hwf hdata hx.page (fun pg hb => ?_) hs,fun h => (by cases h),fun v hv => ?_,
      List.forall_mem_cons.mpr ⟨fun name flags hopen => ?_,hx.opens⟩⟩
    · rcases hb with hb | hb <;> cases hb
    · cases hv
      exact ⟨buf,hnext⟩
    · obtain rfl : c = .open name flags := hopen
      obtain ⟨rfl,rfl⟩ : name = indexPath ∧ flags = O_RDONLY :=
        (Stage.of_runs hnext).within _ List.mem_cons_self
      exact open_fails hx.page hend rfl henc hans

/-- The protected server never sends the file. Whatever it is answered and whoever
connects, as long as the page of the literal `"index.html"` is mapped read-only and is in
no writable segment, every worker's call of `open` is blocked, and the client gets a
start of the header: all of it, if the request was accepted and the host takes it. -/
theorem protected_header_only {rt : Runtime} {segments : List Segment} {pgroot : LeafTable Word}
    {mem : Mem} {r : InitReply} {m₀ : Machine} {ls : List Move}
    (hinit : sthreadInit rt segments pgroot mem r = .ok (boot,m₀))
    (hwf : ∀ seg ∈ segments, seg.WellFormed) (hliteral : readOnly pgroot (path.toNat / 4096) = true)
    (hdata : ∀ seg ∈ segments, seg.writable = true → ¬PageIn (path.toNat / 4096) seg.span)
    (hend : path.toNat + 10 < 2^64)
    (hruns : Runs (fun a l b => keepsLiteral path a l = true ∧ Site.step boot path a l = .ok b)
      {server := {machine := m₀}} ls x) :
    delivered x.history <+: responseHeader ∧ NothingOpened x.history ∧
    ∀ w, x.worker = some w → w.pc = .done → Accepted x.history →
      delivered x.history = responseHeader ∨ Short x.history := by
  obtain ⟨hboot,-,hstart⟩ := sthreadInit_ok hinit
  have hsegs : boot.segments = segments := by rw [hboot]
  rw [← hsegs] at hwf hdata
  have hfirst : Literal path {server := {machine := m₀}} := by
    refine ⟨⟨?_,?_⟩,fun _ => rfl,fun w hw => (by cases hw),fun e he => absurd he List.not_mem_nil⟩
    · rw [hstart]
      exact hliteral
    · rw [hstart]
      exact fun s hs => absurd hs List.not_mem_nil
  have hx : Literal path x := by
    refine hruns.invariant (I := fun a _ => Literal path a) hfirst ?_
    intro a _ l b ha ⟨hkeep,hstep⟩
    exact ha.step hwf hdata hend hkeep hstep
  have hfile : responseHeader ++ fetched x.history = responseHeader := by
    rw [hx.opens.fetched,List.append_nil]
  refine ⟨?_,hx.opens,fun w hw hdone hacc => ?_⟩
  · cases hworker : x.worker with
    | none =>
      rw [hx.idle hworker]
      exact List.nil_prefix
    | some w =>
      obtain ⟨buf,hrun⟩ := hx.runs w hworker
      exact hfile ▸ (Stage.of_runs hrun).delivered
  · obtain ⟨buf,hrun⟩ := hx.runs w hw
    exact hfile ▸ (Stage.of_runs hrun).complete hdone hacc

/-- Connection 3: the request is read while the server waits, the header is sent, and the
file is not opened. -/
def headerSent : List Move := [
  .server (.run (.syscall exitCall {})),
  .call {rax := 2,rdi := 0x400010} {} ⟨-1,[]⟩,
  .call {rax := 1,rdi := 3,rsi := 0x23000000,rdx := 41} {} ⟨41,[]⟩,
  .server (.run (.poll {})),.server (.call (.join 1)),
  .call {rdi := 3,rsi := 0x23000000,rdx := 4095} {} ⟨14,text "GET / HTTP/1.0"⟩,
  .create 0x401000 3 ⟨0x23000000,0x24000000,0x2000000⟩ fun _ => 0,
  .server (.call (.scSysAdd 0 3)),.server (.call (.scSysAdd 0 2)),
  .server (.call (.scFdAdd 0 3 3)),.server (.call (.scInit 0)),.server (.accept 3)]

def literalMem (a : ℕ) : Byte := if a < 0x400010 then 0 else indexPath.getD (a - 0x400010) 0

def serveSite (ls : List Move) : Option Site :=
  match sthreadInit flatRuntime twoSegments fourPages literalMem flatInit with
  | .error _ => none
  | .ok b => follow (Site.step b.1 0x400010) (keepsLiteral 0x400010) {server := {machine := b.2}} ls

theorem protected_header_only_headerSent : ∃ boot m₀ x,
    sthreadInit flatRuntime twoSegments fourPages literalMem flatInit = .ok (boot,m₀) ∧
    Runs (fun a l b => keepsLiteral 0x400010 a l = true ∧ Site.step boot 0x400010 a l = .ok b)
      {server := {machine := m₀}} headerSent x ∧
    delivered x.history = responseHeader ∧ x.history.length = 3 ∧ NothingOpened x.history := by
  have hserve : (serveSite headerSent).any
      (fun x => delivered x.history == responseHeader && x.history.length == 3) = true := by
    decide +kernel
  unfold serveSite at hserve
  have hwf : ∀ seg ∈ twoSegments, seg.WellFormed := by
    intro seg hseg
    simp only [twoSegments,List.mem_cons,List.not_mem_nil,or_false] at hseg
    rcases hseg with rfl | rfl <;> exact ⟨by decide,by decide,by decide,by decide⟩
  cases hinit : sthreadInit flatRuntime twoSegments fourPages literalMem flatInit with
  | error e =>
    simp only [hinit] at hserve
    cases hserve
  | ok b =>
    simp only [hinit] at hserve
    obtain ⟨x,hruns,hx⟩ := exists_of_follow hserve
    simp only [Bool.and_eq_true,beq_iff_eq] at hx
    exact ⟨b.1,b.2,x,rfl,hruns,hx.1,hx.2,
      (protected_header_only hinit hwf (by decide +kernel) (by decide +kernel) (by decide) hruns).2.1⟩

end Protected

end HttpdWorker
end VmplApps
