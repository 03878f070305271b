import Mathlib.Tactic

/-! Tables of leaf entries in ascending page order, and the walk over them. A
callback sees the selected leaves one by one, replaces their entries, carries a
state along and stops the walk with a nonzero result. -/
namespace VmplApps

theorem exists_of_forall₂ {α β : Type} {R : α → β → Prop} {l : List α} {l' : List β}
    (h : List.Forall₂ R l l') {b : β} (hb : b ∈ l') : ∃ a ∈ l, R a b := by
  induction h with
  | nil => cases hb
  | cons hr _ ih =>
    rcases List.mem_cons.mp hb with rfl | hb
    · exact ⟨_,List.mem_cons_self,hr⟩
    · obtain ⟨a,ha,hab⟩ := ih hb
      exact ⟨a,List.mem_cons_of_mem _ ha,hab⟩

theorem forall₂_trans {α : Type} {R : α → α → Prop} (ht : ∀ a b c, R a b → R b c → R a c)
    {l m n : List α} (h : List.Forall₂ R l m) (h' : List.Forall₂ R m n) : List.Forall₂ R l n := by
  induction h generalizing n with
  | nil => exact h'
  | cons hr _ ih =>
    cases h' with
    | cons hr' h' => exact .cons (ht _ _ _ hr hr') (ih h')

@[ext]
structure LeafTable (E : Type) where
  leaves : List (ℕ × E)
  sorted : (leaves.map Prod.fst).Pairwise (· < ·)

namespace LeafTable

variable {E σ : Type}

def get? (t : LeafTable E) (p : ℕ) : Option E := t.leaves.lookup p

theorem mem_leaves {t : LeafTable E} {p : ℕ} {e : E} : (p,e) ∈ t.leaves ↔ t.get? p = some e := by
  obtain ⟨l,hl⟩ := t
  simp only [get?]
  induction l with
  | nil => simp
  | cons x rest ih =>
    obtain ⟨q,a⟩ := x
    rw [List.map_cons,List.pairwise_cons] at hl
    by_cases hq : p = q
    · subst hq
      have hout : (p,e) ∉ rest := fun h => absurd (hl.1 p (List.mem_map_of_mem h)) (lt_irrefl p)
      simp [hout,eq_comm]
    · simp [hq,List.lookup_cons,beq_eq_false_iff_ne.mpr hq,ih hl.2]

def modify (t : LeafTable E) (p : ℕ) (f : E → E) : LeafTable E where
  leaves := t.leaves.map fun x => if x.1 = p then (x.1,f x.2) else x
  sorted := by
    have hpages : (t.leaves.map fun x => if x.1 = p then (x.1,f x.2) else x).map Prod.fst =
        t.leaves.map Prod.fst := by
      rw [List.map_map]
      refine List.map_congr_left fun x _ => ?_
      by_cases hx : x.1 = p <;> simp [hx]
    rw [hpages]
    exact t.sorted

theorem mem_modify {t : LeafTable E} {p : ℕ} {e : E} (h : (p,e) ∈ t.leaves) (f : E → E) :
    (p,f e) ∈ (t.modify p f).leaves := List.mem_map.mpr ⟨(p,e),h,if_pos rfl⟩

section Visit
variable (sel : ℕ → E → Bool) (cb : σ → ℕ → E → ℤ × E × σ)

/-- Result, leaves and state after a walk over a list of leaves. -/
def visit : σ → List (ℕ × E) → ℤ × List (ℕ × E) × σ
  | s, [] => (0,[],s)
  | s, (p,e)::rest =>
    if sel p e then
      let (rc,e',s') := cb s p e
      if rc ≠ 0 then (rc,(p,e')::rest,s')
      else
        let (rc,rest',s'') := visit s' rest
        (rc,(p,e')::rest',s'')
    else
      let (rc,rest',s') := visit s rest
      (rc,(p,e)::rest',s')

theorem visit_pages (s : σ) (l : List (ℕ × E)) :
    (visit sel cb s l).2.1.map Prod.fst = l.map Prod.fst := by
  induction l generalizing s with
  | nil => rfl
  | cons x rest ih =>
    obtain ⟨p,e⟩ := x
    simp only [visit]
    split_ifs <;> simp [ih]

def walk (t : LeafTable E) (s : σ) : ℤ × LeafTable E × σ :=
  let r := visit sel cb s t.leaves
  (r.1,⟨r.2.1,by rw [visit_pages]; exact t.sorted⟩,r.2.2)

@[simp] theorem walk_leaves (t : LeafTable E) (s : σ) :
    (t.walk sel cb s).2.1.leaves = (visit sel cb s t.leaves).2.1 := rfl
@[simp] theorem walk_state (t : LeafTable E) (s : σ) :
    (t.walk sel cb s).2.2 = (visit sel cb s t.leaves).2.2 := rfl

def selected (l : List (ℕ × E)) : List (ℕ × E) := l.filter fun x => sel x.1 x.2

theorem selected_cons_pos {sel : ℕ → E → Bool} {p : ℕ} {e : E} (h : sel p e = true)
    (l : List (ℕ × E)) : selected sel ((p,e)::l) = (p,e)::selected sel l := by simp [selected,h]

theorem selected_cons_neg {sel : ℕ → E → Bool} {p : ℕ} {e : E} (h : ¬sel p e = true)
    (l : List (ℕ × E)) : selected sel ((p,e)::l) = selected sel l := by simp [selected,h]

/-- How many selected leaves come before a page. -/
def rank (l : List (ℕ × E)) (p : ℕ) : ℕ := (l.filter fun x => sel x.1 x.2 && x.1 < p).length

end Visit

section Total
variable {sel : ℕ → E → Bool} {cb : σ → ℕ → E → ℤ × E × σ}

theorem visit_total (h0 : ∀ s p e, (cb s p e).1 = 0) (s : σ) (l : List (ℕ × E)) :
    (visit sel cb s l).1 = 0 ∧
    (visit sel cb s l).2.2 = (selected sel l).foldl (fun s x => (cb s x.1 x.2).2.2) s := by
  induction l generalizing s with
  | nil => exact ⟨rfl,rfl⟩
  | cons x rest ih =>
    obtain ⟨p,e⟩ := x
    by_cases hs : sel p e = true
    · simp [visit,selected,hs,h0,ih]
    · simp [visit,selected,hs,ih]

theorem visit_map {f : ℕ → E → E} (h0 : ∀ s p e, (cb s p e).1 = 0)
    (hf : ∀ s p e, (cb s p e).2.1 = f p e) (s : σ) (l : List (ℕ × E)) :
    (visit sel cb s l).2.1 = l.map fun x => (x.1,if sel x.1 x.2 then f x.1 x.2 else x.2) := by
  induction l generalizing s with
  | nil => rfl
  | cons x rest ih =>
    obtain ⟨p,e⟩ := x
    by_cases hs : sel p e = true
    · simp [visit,hs,h0,hf,ih]
    · simp [visit,hs,ih]

theorem visit_counter {next : σ → σ} (h0 : ∀ s p e, (cb s p e).1 = 0)
    (hn : ∀ s p e, (cb s p e).2.2 = next s) (s : σ) (l : List (ℕ × E)) :
    (visit sel cb s l).2.2 = next^[(selected sel l).length] s := by
  rw [(visit_total h0 s l).2]
  simp only [hn]
  exact List.foldl_const next s _

theorem rank_head {p : ℕ} (e : E) {rest : List (ℕ × E)}
    (h : ∀ q ∈ rest.map Prod.fst, p < q) : rank sel ((p,e)::rest) p = 0 := by
  simp only [rank,List.length_eq_zero_iff,List.filter_eq_nil_iff]
  intro y hy
  rcases List.mem_cons.mp hy with rfl | hy
  · simp
  · have := h y.1 (List.mem_map_of_mem hy)
    simp
    omega

/-- When the state only counts, each selected leaf sees the number of selected
leaves before it. -/
theorem mem_visit_counter {next : σ → σ} {f : σ → ℕ → E → E} (h0 : ∀ s p e, (cb s p e).1 = 0)
    (hf : ∀ s p e, (cb s p e).2.1 = f s p e) (hn : ∀ s p e, (cb s p e).2.2 = next s) (s : σ)
    {l : List (ℕ × E)} (hl : (l.map Prod.fst).Pairwise (· < ·)) {p : ℕ} {e' : E}
    (h : (p,e') ∈ (visit sel cb s l).2.1) :
    ∃ e, (p,e) ∈ l ∧ e' = if sel p e then f (next^[rank sel l p] s) p e else e := by
  induction l generalizing s with
  | nil => cases h
  | cons x rest ih =>
    obtain ⟨q,a⟩ := x
    rw [List.map_cons,List.pairwise_cons] at hl
    have hrest (hp : (p,e') ∈ (visit sel cb (if sel q a then next s else s) rest).2.1) :
        ∃ e, (p,e) ∈ rest ∧ e' = if sel p e then
          f (next^[rank sel ((q,a)::rest) p] s) p e else e := by
      obtain ⟨e,he,heq⟩ := ih _ hl.2 hp
      refine ⟨e,he,heq.trans ?_⟩
      have hlt : q < p := hl.1 p (List.mem_map_of_mem he)
      by_cases hq : sel q a = true <;> simp [rank,hq,hlt]
    by_cases hq : sel q a = true
    · simp only [visit,hq,if_true,h0,hn,hf] at h hrest
      simp only [ne_eq,not_true_eq_false,if_false,List.mem_cons,Prod.mk.injEq] at h
      rcases h with ⟨rfl,rfl⟩ | h
      · exact ⟨a,List.mem_cons_self,by simp [hq,rank_head a hl.1]⟩
      · obtain ⟨e,he,heq⟩ := hrest h
        exact ⟨e,List.mem_cons_of_mem _ he,heq⟩
    · simp only [visit,hq] at h hrest
      simp only [Bool.false_eq_true,if_false,List.mem_cons,Prod.mk.injEq] at h hrest
      rcases h with ⟨rfl,rfl⟩ | h
      · exact ⟨_,List.mem_cons_self,by simp [hq]⟩
      · obtain ⟨e,he,heq⟩ := hrest h
        exact ⟨e,List.mem_cons_of_mem _ he,heq⟩

theorem mem_visit_other {p : ℕ} {e : E} (hs : sel p e = false) (s : σ) {l : List (ℕ × E)}
    (h : (p,e) ∈ l) : (p,e) ∈ (visit sel cb s l).2.1 := by
  induction l generalizing s with
  | nil => cases h
  | cons x rest ih =>
    obtain ⟨q,a⟩ := x
    simp only [visit]
    rcases List.mem_cons.mp h with heq | h
    · obtain ⟨rfl,rfl⟩ := Prod.mk.inj heq
      simp [hs]
    · split_ifs
      · exact List.mem_cons_of_mem _ h
      · exact List.mem_cons_of_mem _ (ih _ h)
      · exact List.mem_cons_of_mem _ (ih _ h)

theorem visit_same (hcb : ∀ s p e, (cb s p e).2.1 = e) (s : σ) (l : List (ℕ × E)) :
    (visit sel cb s l).2.1 = l := by
  induction l generalizing s with
  | nil => rfl
  | cons x rest ih =>
    obtain ⟨p,e⟩ := x
    simp only [visit]
    split_ifs <;> simp [hcb,ih]

/-- A statement about the state and the number of leaves seen so far that every
selected leaf carries on. -/
theorem visit_counted {J : ℕ → σ → Prop} {N : ℕ} (h0 : ∀ s p e, (cb s p e).1 = 0)
    (hJ : ∀ n s p e, n < N → sel p e = true → J n s → J (n+1) (cb s p e).2.2) {n : ℕ} {s : σ}
    {l : List (ℕ × E)} (hN : n + (selected sel l).length ≤ N) (h : J n s) :
    J (n + (selected sel l).length) (visit sel cb s l).2.2 := by
  induction l generalizing n s with
  | nil => exact h
  | cons x rest ih =>
    obtain ⟨p,e⟩ := x
    by_cases hs : sel p e = true
    · have hcount : n + (selected sel ((p,e)::rest)).length = n+1 + (selected sel rest).length := by
        rw [selected_cons_pos hs,List.length_cons]
        omega
      rw [hcount] at hN ⊢
      simpa [visit,hs,h0] using ih hN (hJ n s p e (by omega) hs h)
    · rw [selected_cons_neg hs] at hN ⊢
      simpa [visit,hs] using ih hN h

/-- What a selected leaf establishes, and the leaves after it keep, holds at the end. -/
theorem visit_reaches {J : ℕ → σ → Prop} {Q : σ → Prop} {N : ℕ} (h0 : ∀ s p e, (cb s p e).1 = 0)
    (hJ : ∀ n s p e, n < N → sel p e = true → J n s → J (n+1) (cb s p e).2.2)
    (hkeep : ∀ n s p e, n < N → sel p e = true → J n s → Q s → Q (cb s p e).2.2) {n : ℕ} {s : σ}
    {l : List (ℕ × E)} (hl : (l.map Prod.fst).Pairwise (· < ·))
    (hN : n + (selected sel l).length ≤ N) {p : ℕ} {e : E} (hp : (p,e) ∈ l) (hsel : sel p e = true)
    (hQ : ∀ s, J (n + rank sel l p) s → Q (cb s p e).2.2) (h : J n s) :
    Q (visit sel cb s l).2.2 := by
  induction l generalizing n s with
  | nil => cases hp
  | cons x rest ih =>
    obtain ⟨q,a⟩ := x
    rw [List.map_cons,List.pairwise_cons] at hl
    rcases List.mem_cons.mp hp with heq | hp
    · obtain ⟨rfl,rfl⟩ := Prod.mk.inj heq
      rw [rank_head e hl.1] at hQ
      have hlen : n + 1 + (selected sel rest).length ≤ N := by
        rw [selected_cons_pos hsel,List.length_cons] at hN
        omega
      have hnext := visit_counted (J := fun n s => J n s ∧ Q s) h0
        (fun n s p e hn hs h => ⟨hJ n s p e hn hs h.1,hkeep n s p e hn hs h.1 h.2⟩) hlen
        ⟨hJ n s p e (by omega) hsel h,hQ s h⟩
      simpa [visit,hsel,h0] using hnext.2
    · have hlt : q < p := hl.1 p (List.mem_map_of_mem hp)
      by_cases hq : sel q a = true
      · have hrank : n + rank sel ((q,a)::rest) p = n + 1 + rank sel rest p := by
          simp [rank,hq,hlt]
          omega
        have hlen : n + 1 + (selected sel rest).length ≤ N := by
          rw [selected_cons_pos hq,List.length_cons] at hN
          omega
        rw [hrank] at hQ
        simpa [visit,hq,h0] using ih hl.2 hlen hp hQ (hJ n s q a (by omega) hq h)
      · have hrank : rank sel ((q,a)::rest) p = rank sel rest p := by simp [rank,hq]
        rw [hrank] at hQ
        rw [selected_cons_neg hq] at hN
        simpa [visit,hq] using ih hl.2 hN hp hQ h

theorem length_le_of_ascending {l : List ℕ} {lo hi : ℕ} (hl : l.Pairwise (· < ·))
    (hmem : ∀ x ∈ l, lo ≤ x ∧ x < hi) : l.length ≤ hi - lo := by
  induction l generalizing lo with
  | nil => exact Nat.zero_le _
  | cons x rest ih =>
    rw [List.pairwise_cons] at hl
    have hx := hmem x List.mem_cons_self
    have hrest : rest.length ≤ hi - (x+1) := ih hl.2 fun y hy =>
      ⟨hl.1 y hy,(hmem y (List.mem_cons_of_mem _ hy)).2⟩
    rw [List.length_cons]
    omega

theorem length_selected_le {lo hi : ℕ} {l : List (ℕ × E)} (hl : (l.map Prod.fst).Pairwise (· < ·))
    (hsel : ∀ p e, sel p e = true → lo ≤ p ∧ p < hi) : (selected sel l).length ≤ hi - lo := by
  have hsub : ((selected sel l).map Prod.fst).Sublist (l.map Prod.fst) :=
    List.filter_sublist.map _
  rw [← List.length_map Prod.fst]
  refine length_le_of_ascending (hl.sublist hsub) fun p hp => ?_
  obtain ⟨⟨q,e⟩,hq,rfl⟩ := List.mem_map.mp hp
  exact hsel q e (List.mem_filter.mp hq).2

theorem rank_le {lo hi p : ℕ} {l : List (ℕ × E)} (hl : (l.map Prod.fst).Pairwise (· < ·))
    (hsel : ∀ p e, sel p e = true → lo ≤ p ∧ p < hi) : rank sel l p ≤ p - lo := by
  have h : rank sel l p = (selected (fun q e => sel q e && q < p) l).length := rfl
  rw [h]
  refine length_selected_le hl fun q e hq => ?_
  simp only [Bool.and_eq_true,decide_eq_true_eq] at hq
  exact ⟨(hsel q e hq.1).1,hq.2⟩

theorem selected_pages_eq {lo hi : ℕ} {l : List (ℕ × E)} (hl : (l.map Prod.fst).Pairwise (· < ·))
    (hsel : ∀ p e, sel p e = true → lo ≤ p ∧ p < hi)
    (hall : ∀ p, lo ≤ p → p < hi → ∃ e, (p,e) ∈ l ∧ sel p e = true) :
    (selected sel l).map Prod.fst = List.range' lo (hi - lo) := by
  have hsub : ((selected sel l).map Prod.fst).Sublist (l.map Prod.fst) :=
    List.filter_sublist.map _
  refine (hl.sublist hsub).eq_of_mem_iff List.pairwise_lt_range' fun p => ?_
  rw [List.mem_range'_1]
  constructor
  · intro hp
    obtain ⟨⟨q,e⟩,hq,rfl⟩ := List.mem_map.mp hp
    have hin := hsel q e (List.mem_filter.mp hq).2
    omega
  · rintro ⟨hlo,hhi⟩
    obtain ⟨e,he,hs⟩ := hall p hlo (by omega)
    exact List.mem_map.mpr ⟨(p,e),List.mem_filter.mpr ⟨he,hs⟩,rfl⟩

theorem length_selected_eq {lo hi : ℕ} {l : List (ℕ × E)} (hl : (l.map Prod.fst).Pairwise (· < ·))
    (hsel : ∀ p e, sel p e = true → lo ≤ p ∧ p < hi)
    (hall : ∀ p, lo ≤ p → p < hi → ∃ e, (p,e) ∈ l ∧ sel p e = true) :
    (selected sel l).length = hi - lo := by
  rw [← List.length_map Prod.fst,selected_pages_eq hl hsel hall,List.length_range']

theorem rank_eq {lo hi p : ℕ} {l : List (ℕ × E)} (hl : (l.map Prod.fst).Pairwise (· < ·))
    (hsel : ∀ p e, sel p e = true → lo ≤ p ∧ p < hi)
    (hall : ∀ p, lo ≤ p → p < hi → ∃ e, (p,e) ∈ l ∧ sel p e = true) (hp : p ≤ hi) :
    rank sel l p = p - lo := by
  have h : rank sel l p = (selected (fun q e => sel q e && q < p) l).length := rfl
  rw [h]
  refine length_selected_eq hl (fun q e hq => ?_) fun q hlo hq => ?_
  · simp only [Bool.and_eq_true,decide_eq_true_eq] at hq
    exact ⟨(hsel q e hq.1).1,hq.2⟩
  · obtain ⟨e,he,hs⟩ := hall q hlo (by omega)
    exact ⟨e,he,by simp [hs,hq]⟩

end Total

/-- A callback that also notes the page it is called for and where it has got to. -/
def noted {ω : Type} (pos : σ → ω) (cb : σ → ℕ → E → ℤ × E × σ) (s : σ × List (ℕ × ω)) (p : ℕ)
    (e : E) : ℤ × E × (σ × List (ℕ × ω)) :=
  let r := cb s.1 p e
  (r.1,r.2.1,r.2.2,s.2 ++ [(p,pos s.1)])

section Noted
variable {ω : Type} {pos : σ → ω} {cb : σ → ℕ → E → ℤ × E × σ}

/-- Taking notes does not change a walk. -/
theorem visit_noted (sel : ℕ → E → Bool) (pos : σ → ω) (cb : σ → ℕ → E → ℤ × E × σ) (s : σ)
    (log : List (ℕ × ω)) (l : List (ℕ × E)) :
    (visit sel (noted pos cb) (s,log) l).1 = (visit sel cb s l).1 ∧
    (visit sel (noted pos cb) (s,log) l).2.1 = (visit sel cb s l).2.1 ∧
    (visit sel (noted pos cb) (s,log) l).2.2.1 = (visit sel cb s l).2.2 := by
  induction l generalizing s log with
  | nil => exact ⟨rfl,rfl,rfl⟩
  | cons x rest ih =>
    obtain ⟨p,e⟩ := x
    by_cases hsel : sel p e = true
    · by_cases hrc : (cb s p e).1 = 0 <;> simp [visit,noted,hsel,hrc,ih]
    · simp [visit,hsel,ih]

theorem visit_noted_log (sel : ℕ → E → Bool) {f : ℕ → ω} (h0 : ∀ s p e, (cb s p e).1 = 0)
    (hf : ∀ n s p e, pos s = f n → pos (cb s p e).2.2 = f (n+1)) {n : ℕ} {s : σ} (hs : pos s = f n)
    (log : List (ℕ × ω)) (l : List (ℕ × E)) :
    (visit sel (noted pos cb) (s,log) l).2.2.2 =
      log ++ (((selected sel l).map Prod.fst).zipIdx n).map (fun x => (x.1,f x.2)) ∧
    pos (visit sel (noted pos cb) (s,log) l).2.2.1 = f (n + (selected sel l).length) := by
  induction l generalizing n s log with
  | nil => simp [visit,selected,hs]
  | cons x rest ih =>
    obtain ⟨p,e⟩ := x
    by_cases hsel : sel p e = true
    · obtain ⟨hlog,hpos⟩ := ih (hf n s p e hs) (log ++ [(p,pos s)])
      rw [selected_cons_pos hsel]
      simp only [visit,noted,hsel,if_true,h0,ne_eq,not_true_eq_false,if_false]
      refine ⟨?_,?_⟩
      · rw [hlog]
        simp [hs,List.zipIdx_cons]
      · rw [hpos,List.length_cons]
        congr 1
        omega
    · obtain ⟨hlog,hpos⟩ := ih hs log
      rw [selected_cons_neg hsel]
      simp only [visit,hsel]
      exact ⟨hlog,hpos⟩

end Noted

/-- Same pages, with entries related one by one. -/
def Related (R : E → E → Prop) (t t' : LeafTable E) : Prop :=
  List.Forall₂ (fun x y => x.1 = y.1 ∧ R x.2 y.2) t.leaves t'.leaves

section Related
variable {R : E → E → Prop}

theorem Related.refl (hr : ∀ e, R e e) (t : LeafTable E) : Related R t t :=
  List.forall₂_same.mpr fun x _ => ⟨rfl,hr x.2⟩

theorem Related.trans (ht : ∀ a b c, R a b → R b c → R a c) {t u v : LeafTable E}
    (h : Related R t u) (h' : Related R u v) : Related R t v :=
  forall₂_trans (fun _ _ _ hx hy => ⟨hx.1.trans hy.1,ht _ _ _ hx.2 hy.2⟩) h h'

theorem Related.mono {R' : E → E → Prop} (hi : ∀ e e', R e e' → R' e e') {t t' : LeafTable E}
    (h : Related R t t') : Related R' t t' :=
  List.Forall₂.imp (fun _ _ hx => ⟨hx.1,hi _ _ hx.2⟩) h

theorem Related.mem {t t' : LeafTable E} (h : Related R t t') {p : ℕ} {e' : E}
    (hp : (p,e') ∈ t'.leaves) : ∃ e, (p,e) ∈ t.leaves ∧ R e e' := by
  obtain ⟨⟨q,e⟩,he,rfl,hr⟩ := exists_of_forall₂ h hp
  exact ⟨e,he,hr⟩

theorem Related.mem_left {t t' : LeafTable E} (h : Related R t t') {p : ℕ} {e : E}
    (hp : (p,e) ∈ t.leaves) : ∃ e', (p,e') ∈ t'.leaves ∧ R e e' := by
  obtain ⟨⟨q,e'⟩,he',heq,hr⟩ := exists_of_forall₂ (List.Forall₂.flip h) hp
  obtain rfl : p = q := heq
  exact ⟨e',he',hr⟩

theorem related_visit {sel : ℕ → E → Bool} {cb : σ → ℕ → E → ℤ × E × σ} (hr : ∀ e, R e e)
    (hcb : ∀ s p e, R e (cb s p e).2.1) (s : σ) (l : List (ℕ × E)) :
    List.Forall₂ (fun x y => x.1 = y.1 ∧ R x.2 y.2) l (visit sel cb s l).2.1 := by
  induction l generalizing s with
  | nil => exact .nil
  | cons x rest ih =>
    obtain ⟨p,e⟩ := x
    simp only [visit]
    split_ifs
    · exact .cons ⟨rfl,hcb s p e⟩ (List.forall₂_same.mpr fun y _ => ⟨rfl,hr y.2⟩)
    · exact .cons ⟨rfl,hcb s p e⟩ (ih _)
    · exact .cons ⟨rfl,hr e⟩ (ih _)

/-- A walk relates the table to its result when the callback relates each entry
to its replacement. -/
theorem related_walk {sel : ℕ → E → Bool} {cb : σ → ℕ → E → ℤ × E × σ} (hr : ∀ e, R e e)
    (hcb : ∀ s p e, R e (cb s p e).2.1) (t : LeafTable E) (s : σ) :
    Related R t (t.walk sel cb s).2.1 := related_visit hr hcb s t.leaves

theorem related_modify {f : E → E} (hr : ∀ e, R e e) (hf : ∀ e, R e (f e)) (t : LeafTable E)
    (p : ℕ) : Related R t (t.modify p f) := by
  simp only [Related,modify,List.forall₂_map_right_iff]
  refine List.forall₂_same.mpr fun x _ => ?_
  by_cases hx : x.1 = p
  · rw [if_pos hx]
    exact ⟨rfl,hf x.2⟩
  · rw [if_neg hx]
    exact ⟨rfl,hr x.2⟩

end Related

end LeafTable
end VmplApps
