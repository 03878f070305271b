import VmplApps.ExecScript

/-! The argument vector that `exec_execev` builds for the nested sandbox. It keeps the
caller's `argv[0]` in every case: an ELF file is run under that name instead of the
file's, and a script gets it as an extra first argument. -/
namespace VmplApps
namespace ExecArguments

open SandboxAccesses ExecScript

/-- The bytes of a C string, without the terminator. -/
abbrev Text := List Byte

def sandboxPath : Text := "./sandbox".toList.map fun c => BitVec.ofNat 8 c.toNat
def ldPath : Text := "/lib64/ld-linux-x86-64.so.2".toList.map fun c => BitVec.ofNat 8 c.toNat

/-- `new_argv`: how many pointers were allocated, the strings they point to with `none`
for `NULL`, and the indices stored to. -/
structure NewArgv where
  size : ℕ
  cells : ℕ → Option Text
  used : List ℕ := []

namespace NewArgv

def store (v : NewArgv) (i : ℕ) (s : Option Text) : NewArgv :=
  {v with cells := Function.update v.cells i s,used := i::v.used}

/-- `for (; i <= arglen; i++) new_argv[i + off] = argv[i];` with `n` rounds left. -/
def copyArgs (argv : List Text) (off : ℕ) : ℕ → ℕ → NewArgv → NewArgv
  | _, 0, v => v
  | i, n+1, v => copyArgs argv off (i+1) n (v.store (i+off) argv[i]?)

/-- The strings up to the first `NULL`, read at most `n` further. -/
def listed (cells : ℕ → Option Text) : ℕ → ℕ → List Text
  | _, 0 => []
  | i, n+1 =>
    match cells i with
    | none => []
    | some s => s::listed cells (i+1) n

def handed (v : NewArgv) : List Text := listed v.cells 0 v.size

def Inside (v : NewArgv) : Prop := ∀ i ∈ v.used, i < v.size

end NewArgv

def INT_MAX : ℕ := 2^31-1

/-- An array of `arglen + extra` pointers, filled by `fill`. There is none if the
length is no `int`; `junk` is what the allocation holds. -/
def build (argv : List Text) (extra : ℕ) (junk : ℕ → Option Text) (fill : NewArgv → NewArgv) :
    Option NewArgv :=
  if argv.length + extra ≤ INT_MAX then some (fill ⟨argv.length + extra,junk,[]⟩) else none

def fillElf (argv : List Text) (v : NewArgv) : NewArgv :=
  let v := (v.store 0 (some sandboxPath)).store 1 (some ldPath)
  (NewArgv.copyArgs argv 2 0 (argv.length+1) v).store (argv.length+3) none

def fillScript (filename : Text) (argv : List Text) (page : ℕ → Text) (strings : Strings)
    (v : NewArgv) : NewArgv :=
  let v := ((v.store 0 (some sandboxPath)).store 1 (some ldPath)).store 2
    (some (page strings.interpBegin))
  match strings.argBegin with
  | none =>
    (NewArgv.copyArgs argv 4 0 (argv.length+1) (v.store 3 (some filename))).store (argv.length+5) none
  | some a =>
    (NewArgv.copyArgs argv 5 0 (argv.length+1)
      ((v.store 3 (some (page a))).store 4 (some filename))).store (argv.length+6) none

/-- The array of `exec_execev` for a file that it goes on with. -/
def newArgv (filename : Text) (argv : List Text) (page : ℕ → Text) (junk : ℕ → Option Text) :
    Plan → Option NewArgv
  | .elf => build argv 4 junk (fillElf argv)
  | .script (some strings) => build argv 7 junk (fillScript filename argv page strings)
  | _ => none

/-- The vector that the comment in the source describes. -/
def asked (filename : Text) (argv : List Text) (page : ℕ → Text) : Plan → Option (List Text)
  | .elf => some (sandboxPath::ldPath::filename::argv.tail)
  | .script (some strings) => some (sandboxPath::ldPath::page strings.interpBegin::
      ((strings.argBegin.map page).toList ++ filename::argv.tail))
  | _ => none

/-- The nested sandbox is given what is asked for, all of it stored inside the array. -/
def HandsOver (filename : Text) (argv : List Text) (page : ℕ → Text) (junk : ℕ → Option Text)
    (plan : Plan) : Prop :=
  ∀ l, asked filename argv page plan = some l →
    ∃ v, newArgv filename argv page junk plan = some v ∧ v.handed = l ∧ v.Inside

section Arrays
variable {argv : List Text} {off i n : ℕ} {v : NewArgv}

theorem store_inside {s : Option Text} (hv : v.Inside) (hi : i < v.size) : (v.store i s).Inside := by
  intro j hj
  rcases List.mem_cons.mp hj with rfl | hj
  · exact hi
  · exact hv j hj

theorem copyArgs_size (argv : List Text) (off i n : ℕ) (v : NewArgv) :
    (NewArgv.copyArgs argv off i n v).size = v.size := by
  induction n generalizing i v with
  | zero => rfl
  | succ n ih => exact ih (i+1) _

theorem copyArgs_inside (hv : v.Inside) (h : i + off + n ≤ v.size) :
    (NewArgv.copyArgs argv off i n v).Inside := by
  induction n generalizing i v with
  | zero => exact hv
  | succ n ih =>
    apply ih (store_inside hv (by omega))
    change i + 1 + off + n ≤ v.size
    omega

theorem copyArgs_cells (j : ℕ) : (NewArgv.copyArgs argv off i n v).cells j =
    if i + off ≤ j ∧ j < i + off + n then argv[j-off]? else v.cells j := by
  induction n generalizing i v with
  | zero =>
    rw [if_neg (by omega)]
    rfl
  | succ n ih =>
    rw [NewArgv.copyArgs,ih]
    by_cases hj : j = i + off
    · subst hj
      rw [if_neg (by omega),if_pos (by omega)]
      simp [NewArgv.store]
    · have hkeep : (v.store (i+off) argv[i]?).cells j = v.cells j := Function.update_of_ne hj _ _
      rw [hkeep]
      by_cases hin : i + 1 + off ≤ j ∧ j < i + 1 + off + n
      · rw [if_pos hin,if_pos (by omega)]
      · rw [if_neg hin,if_neg (by omega)]

theorem listed_eq {cells : ℕ → Option Text} {l : List Text}
    (hcells : ∀ k ≤ l.length, cells (i+k) = l[k]?) (hn : l.length < n) :
    NewArgv.listed cells i n = l := by
  induction l generalizing i n with
  | nil =>
    obtain ⟨n,rfl⟩ : ∃ k, n = k+1 := ⟨n-1,by simp at hn; omega⟩
    have h0 : cells i = none := hcells 0 (Nat.zero_le _)
    simp only [NewArgv.listed,h0]
  | cons s l ih =>
    obtain ⟨n,rfl⟩ : ∃ k, n = k+1 := ⟨n-1,by simp at hn; omega⟩
    have h0 : cells i = some s := hcells 0 (Nat.zero_le _)
    simp only [NewArgv.listed,h0]
    congr 1
    apply ih
    · intro k hk
      have hnext := hcells (k+1) (by simpa using hk)
      rw [List.getElem?_cons_succ] at hnext
      rw [← hnext]
      congr 1
      omega
    · simpa using hn

def storeAll : ℕ → List Text → NewArgv → NewArgv
  | _, [], v => v
  | i, s::l, v => storeAll (i+1) l (v.store i (some s))

theorem storeAll_size (i : ℕ) (l : List Text) (v : NewArgv) : (storeAll i l v).size = v.size := by
  induction l generalizing i v with
  | nil => rfl
  | cons s l ih => exact ih (i+1) _

theorem storeAll_inside {l : List Text} (hv : v.Inside) (h : i + l.length ≤ v.size) :
    (storeAll i l v).Inside := by
  induction l generalizing i v with
  | nil => exact hv
  | cons s l ih =>
    rw [List.length_cons] at h
    apply ih (store_inside hv (by omega))
    change i + 1 + l.length ≤ v.size
    omega

theorem storeAll_cells {l : List Text} (j : ℕ) :
    (storeAll i l v).cells j = if i ≤ j ∧ j < i + l.length then l[j-i]? else v.cells j := by
  induction l generalizing i v with
  | nil =>
    rw [if_neg (by simp)]
    rfl
  | cons s l ih =>
    rw [storeAll,ih,List.length_cons]
    by_cases hj : j = i
    · subst hj
      rw [if_neg (by omega),if_pos (by omega)]
      simp [NewArgv.store]
    · have hkeep : (v.store i (some s)).cells j = v.cells j := Function.update_of_ne hj _ _
      rw [hkeep]
      by_cases hin : i + 1 ≤ j ∧ j < i + 1 + l.length
      · obtain ⟨k,rfl⟩ : ∃ k, j = i + 1 + k := ⟨j-(i+1),by omega⟩
        rw [if_pos hin,if_pos (by omega)]
        have hsub : i + 1 + k - i = k + 1 := by omega
        rw [hsub,List.getElem?_cons_succ]
        congr 1
        omega
      · rw [if_neg hin,if_neg (by omega)]

def filled (head argv : List Text) (v : NewArgv) : NewArgv :=
  (NewArgv.copyArgs argv head.length 0 (argv.length+1) (storeAll 0 head v)).store
    (argv.length+head.length+1) none

theorem filled_handed {head : List Text} (hsize : argv.length + head.length + 1 < v.size) :
    (filled head argv v).handed = head ++ argv := by
  have hsize' : (filled head argv v).size = v.size :=
    (copyArgs_size argv _ 0 _ _).trans (storeAll_size 0 head v)
  rw [NewArgv.handed,hsize']
  apply listed_eq
  · intro k hk
    rw [List.length_append] at hk
    have hcell : (filled head argv v).cells k =
        (NewArgv.copyArgs argv head.length 0 (argv.length+1) (storeAll 0 head v)).cells k :=
      Function.update_of_ne (by omega) _ _
    rw [Nat.zero_add,hcell,copyArgs_cells,storeAll_cells]
    by_cases hin : k < head.length
    · rw [if_neg (by omega),if_pos (by omega),List.getElem?_append_left hin,Nat.sub_zero]
    · rw [if_pos (by omega),List.getElem?_append_right (by omega)]
  · rw [List.length_append]
    omega

theorem filled_inside {head : List Text} (hv : v.Inside)
    (hsize : argv.length + head.length + 1 < v.size) : (filled head argv v).Inside := by
  apply store_inside
  · apply copyArgs_inside (storeAll_inside hv (by omega))
    rw [storeAll_size]
    omega
  · rw [copyArgs_size,storeAll_size]
    exact hsize

end Arrays

section Vectors
variable {filename : Text} {argv : List Text} {page : ℕ → Text} {junk : ℕ → Option Text}

def scriptHead (filename : Text) (page : ℕ → Text) (strings : Strings) : List Text :=
  sandboxPath::ldPath::page strings.interpBegin::((strings.argBegin.map page).toList ++ [filename])

theorem fillElf_eq (argv : List Text) (v : NewArgv) :
    fillElf argv v = filled [sandboxPath,ldPath] argv v := rfl

theorem fillScript_eq (strings : Strings) (v : NewArgv) :
    fillScript filename argv page strings v = filled (scriptHead filename page strings) argv v := by
  unfold fillScript scriptHead
  cases strings.argBegin <;> rfl

theorem build_handed {head l : List Text} {extra : ℕ} {fill : NewArgv → NewArgv}
    (hfill : ∀ v, fill v = filled head argv v) (hextra : head.length + 1 < extra) :
    (∃ v, build argv extra junk fill = some v ∧ v.handed = l ∧ v.Inside) ↔
      argv.length + extra ≤ INT_MAX ∧ l = head ++ argv := by
  set v₀ : NewArgv := ⟨argv.length+extra,junk,[]⟩
  have hsize : argv.length + head.length + 1 < v₀.size := by
    change _ < argv.length + extra
    omega
  have hempty : v₀.Inside := by
    intro i hi
    cases hi
  unfold build
  split_ifs with hint
  · rw [hfill]
    constructor
    · rintro ⟨v,hv,rfl,-⟩
      obtain rfl := Option.some.inj hv
      exact ⟨hint,filled_handed hsize⟩
    · rintro ⟨-,rfl⟩
      exact ⟨_,rfl,filled_handed hsize,filled_inside hempty hsize⟩
  · refine iff_of_false ?_ (fun h => hint h.1)
    rintro ⟨v,hv,-⟩
    cases hv

theorem handsOver_of_asked {plan : Plan} {l : List Text}
    (hl : asked filename argv page plan = some l) : HandsOver filename argv page junk plan ↔
      ∃ v, newArgv filename argv page junk plan = some v ∧ v.handed = l ∧ v.Inside := by
  constructor
  · intro h
    exact h l hl
  · intro h l' hl'
    obtain rfl := Option.some.inj (hl.symm.trans hl')
    exact h

/-- An ELF file is run as asked exactly if its name is also the first argument. -/
theorem handsOver_elf (hargv : argv ≠ []) : HandsOver filename argv page junk .elf ↔
    argv.head? = some filename ∧ argv.length + 4 ≤ INT_MAX := by
  rw [handsOver_of_asked rfl]
  refine (build_handed (fillElf_eq argv) (by simp)).trans ?_
  cases argv with
  | nil => exact absurd rfl hargv
  | cons name args => simp [and_comm,eq_comm]

/-- A script is never run as asked: the caller's first argument comes too. -/
theorem handsOver_script (hargv : argv ≠ []) (strings : Strings) :
    ¬HandsOver filename argv page junk (.script (some strings)) := by
  have hhead : (scriptHead filename page strings).length + 1 < 7 := by
    unfold scriptHead
    cases strings.argBegin <;> simp
  rw [handsOver_of_asked rfl]
  -- all of `argv` is copied behind the file's name, so the vector is one too long
  intro h
  obtain ⟨-,hl⟩ := (build_handed (fillScript_eq strings) hhead).mp h
  have hlen := congrArg List.length hl
  have hpos := List.length_pos_of_ne_nil hargv
  simp only [scriptHead,List.length_cons,List.length_append,List.length_tail,List.length_nil] at hlen
  omega

/-- For every file that is read and every nonempty `argv`: the nested sandbox is given
what is asked for exactly if an ELF file is also the first argument; a script that
names an interpreter is always given one argument too many. -/
theorem hands_over_iff (f : ExecFile) (filename : Text) (argv : List Text) (page : ℕ → Text)
    (junk : ℕ → Option Text) (hargv : argv ≠ []) :
    HandsOver filename argv page junk (execPlan f.len ⟨f.page,[]⟩).1 ↔ f.len < 2 ∨
      if f.isElf then argv.head? = some filename ∧ argv.length + 4 ≤ INT_MAX
      else ¬(f.isScript = true ∧ f.namesInterpreter = true) := by
  have hvacuous {plan : Plan} (h : asked filename argv page plan = none) :
      HandsOver filename argv page junk plan := by
    intro l hl
    cases h.symm.trans hl
  by_cases h2 : f.len < 2
  · have hplan : (execPlan f.len ⟨f.page,[]⟩).1 = .refused := by
      unfold execPlan
      rw [if_pos h2]
      rfl
    rw [hplan]
    exact iff_of_true (hvacuous rfl) (.inl h2)
  · have hkind := execPlan_kind (f := f) (by omega)
    cases hplan : (execPlan f.len ⟨f.page,[]⟩).1 with
    | elf =>
      rw [hplan] at hkind
      have helf : f.isElf = true := hkind
      rw [handsOver_elf hargv,if_pos helf,or_iff_right h2]
    | script strings =>
      rw [hplan] at hkind
      obtain ⟨helf,hscript,hnames⟩ := hkind
      rw [or_iff_right h2,helf,if_neg Bool.false_ne_true]
      cases strings with
      | none => exact iff_of_true (hvacuous rfl) fun h => by simp [h.2] at hnames
      | some strings =>
        exact iff_of_false (handsOver_script hargv strings) (not_not.mpr ⟨hscript,hnames.mp rfl⟩)
    | refused =>
      rw [hplan] at hkind
      obtain ⟨helf,hscript⟩ := hkind
      refine iff_of_true (hvacuous rfl) (.inr ?_)
      rw [helf,hscript]
      simp

end Vectors

section Samples

def binLs : Text := [0x2f,0x62,0x69,0x6e,0x2f,0x6c,0x73]
def ls : Text := [0x6c,0x73]

def elfFile : ExecFile where
  opened := true
  len := 4
  page := fun i => [0x7f,0x45,0x4c,0x46].getD i 0

/-- `#!/s`. -/
def scriptFile : ExecFile where
  opened := true
  len := 5
  page := fun i => [0x23,0x21,0x2f,0x73,0x0a].getD i 0

theorem hands_over_iff_binLs :
    HandsOver binLs [binLs,ls] (fun _ => []) (fun _ => none) (execPlan elfFile.len ⟨elfFile.page,[]⟩).1 := by
  apply (hands_over_iff elfFile binLs [binLs,ls] _ _ (List.cons_ne_nil _ _)).mpr
  right
  rw [if_pos (by decide)]
  exact ⟨rfl,by decide⟩

/-- `/bin/ls` called with `ls` as first argument is run as `ls`, and a script gets the
first argument as a second one. -/
theorem first_argument_kept :
    (execPlan elfFile.len ⟨elfFile.page,[]⟩).1 = .elf ∧
    (newArgv binLs [ls] (fun _ => []) (fun _ => none) .elf).map NewArgv.handed =
      some [sandboxPath,ldPath,ls] ∧
    ¬HandsOver binLs [ls] (fun _ => []) (fun _ => none) (execPlan elfFile.len ⟨elfFile.page,[]⟩).1 ∧
    ¬HandsOver binLs [ls] (fun _ => []) (fun _ => none)
      (execPlan scriptFile.len ⟨scriptFile.page,[]⟩).1 := by
  have helf : (execPlan elfFile.len ⟨elfFile.page,[]⟩).1 = .elf := by decide +kernel
  have hscript : (execPlan scriptFile.len ⟨scriptFile.page,[]⟩).1 = .script (some ⟨2,none⟩) := by
    decide +kernel
  refine ⟨helf,?_,?_,?_⟩
  · rfl
  · rw [helf,handsOver_elf (List.cons_ne_nil _ _)]
    exact fun h => absurd h.1 (by decide)
  · rw [hscript]
    exact handsOver_script (List.cons_ne_nil _ _) _

end Samples

end ExecArguments
end VmplApps
