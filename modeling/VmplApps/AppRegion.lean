import VmplApps.Spans
import VmplApps.ByteMemory
import VmplApps.TrapFrame

/-! The two address windows of a sandboxed application and the tests that admit
a pointer to them. The tests work modulo `2^64`; `memRefIsSafe_iff` states what
they accept in exact integers, wrapped ranges included. -/
namespace VmplApps
namespace AppRegion

open ByteMemory

def loaderVaddrOff : Word := 0x6F000000
def appMaxElfVaddr : Word := 0x70000000
def appMmapBaseOff : Word := 0x200000000
def appMmapLen : Word := 0x200000000
def appStackSize : Word := 0x800000

@[simp] theorem appMaxElfVaddr_toNat : appMaxElfVaddr.toNat = 0x70000000 := rfl
@[simp] theorem appMmapBaseOff_toNat : appMmapBaseOff.toNat = 0x200000000 := rfl
@[simp] theorem appMmapLen_toNat : appMmapLen.toNat = 0x200000000 := rfl
@[simp] theorem appStackSize_toNat : appStackSize.toNat = 0x800000 := rfl

/-- `mem_ref_is_safe`, as compiled with `DUNE`. `begin >= 0` holds of every
unsigned value and is kept as written. -/
def memRefIsSafe (mmapBase ptr len : Word) : Bool :=
  let beginAddr := ptr
  let endAddr := ptr + len
  if len ≤ appMaxElfVaddr ∧ beginAddr ≥ 0 ∧ endAddr ≤ appMaxElfVaddr then true
  else if len ≤ appMmapLen ∧ beginAddr ≥ mmapBase ∧ endAddr < mmapBase + appMmapLen then true
  else false

def checkExtent (mmapBase ptr len : Word) : Word :=
  if !memRefIsSafe mmapBase ptr len then -EFAULT else 0

/-- `check_string`: the terminator is looked for up to the end of the window
that contains the pointer. -/
def checkString (mmapBase : Word) (m : Mem) (ptr : Word) : Word :=
  if ptr < appMaxElfVaddr then
    if hasNul m ptr (appMaxElfVaddr - ptr).toNat then 0 else -EFAULT
  else if ptr ≥ mmapBase then
    if ptr ≥ mmapBase + appMmapLen then -EFAULT
    else if hasNul m ptr (mmapBase + appMmapLen - ptr).toNat then 0 else -EFAULT
  else -EFAULT

/-- A range of exact addresses lies in one of the application's windows. -/
def InApp (mmapBase : Word) (s : Span) : Prop :=
  s.Inside 0 0x70000000 ∨ s.Inside mmapBase.toNat (mmapBase.toNat + 0x200000000)

instance (mmapBase : Word) (s : Span) : Decidable (InApp mmapBase s) :=
  inferInstanceAs (Decidable (_ ∨ _))

/-- Where the runtime library puts the mapping window. -/
structure Placed (mmapBase : Word) : Prop where
  aligned : mmapBase.toNat % 4096 = 0
  fits : mmapBase.toNat + 0x200000000 < 2^47

theorem Placed.windowEnd {mmapBase : Word} (h : Placed mmapBase) :
    (mmapBase + appMmapLen).toNat = mmapBase.toNat + 0x200000000 :=
  Words.add_toNat_exact (by have := h.fits; simp only [appMmapLen_toNat]; omega)

/-- The exact meaning of the range test: the range lies in a window, or it runs
past the last address and is no longer than the mapping window. -/
theorem memRefIsSafe_iff {mmapBase : Word} (h : Placed mmapBase) (ptr len : Word) :
    memRefIsSafe mmapBase ptr len = true ↔
      ptr.toNat + len.toNat ≤ 0x70000000 ∨
      (mmapBase.toNat ≤ ptr.toNat ∧ ptr.toNat + len.toNat < mmapBase.toNat + 0x200000000) ∨
      (2^64 ≤ ptr.toNat + len.toNat ∧ len.toNat ≤ 0x200000000) := by
  have hf := h.fits
  have he := h.windowEnd
  have hp := ptr.isLt
  have hz : (0 : Word).toNat = 0 := rfl
  simp only [memRefIsSafe,ge_iff_le,BitVec.le_def,BitVec.lt_def,he,hz,appMaxElfVaddr_toNat,
    appMmapLen_toNat]
  rcases Words.add_toNat_cases ptr len with ⟨hlt,ha⟩ | ⟨hge,ha⟩
  · rw [ha]
    split_ifs <;> simp <;> omega
  · split_ifs <;> simp <;> omega

theorem length_of_memRefIsSafe {mmapBase ptr len : Word}
    (h : memRefIsSafe mmapBase ptr len = true) : len.toNat ≤ 0x200000000 := by
  simp only [memRefIsSafe,BitVec.le_def,appMaxElfVaddr_toNat,appMmapLen_toNat] at h
  split_ifs at h <;> omega

/-- A range that the test accepts and that does not run past the last address
lies in a window. -/
theorem inApp_of_memRefIsSafe {mmapBase ptr len : Word} (h : Placed mmapBase)
    (hs : memRefIsSafe mmapBase ptr len = true) (hw : ptr.toNat + len.toNat < 2^64) :
    InApp mmapBase ⟨ptr.toNat,len.toNat⟩ := by
  simp only [InApp,Span.Inside,Span.stop]
  rcases (memRefIsSafe_iff h ptr len).mp hs with hs | hs | hs <;> omega

theorem InApp.stop_lt {mmapBase : Word} (h : Placed mmapBase) {s : Span} (hs : InApp mmapBase s) :
    s.stop < 2^47 := by
  have := h.fits
  rcases hs with hs | hs <;> have := hs.2 <;> omega

theorem checkExtent_eq_zero {mmapBase ptr len : Word} :
    checkExtent mmapBase ptr len = 0 ↔ memRefIsSafe mmapBase ptr len = true := by
  unfold checkExtent
  cases memRefIsSafe mmapBase ptr len <;> simp [EFAULT]

end AppRegion
end VmplApps
