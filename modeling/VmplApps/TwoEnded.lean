import VmplApps.Spans

/-! A region filled from both ends. The low end moves freely, blocks are carved
off the high end and never returned, and the two never meet. Sizes are whole
pages; a span handed out starts where its block starts. -/
namespace VmplApps
namespace TwoEnded

structure State where
  low : ℕ := 0
  high : ℕ := 0

section Region
variable (base size page : ℕ)

inductive Step (s : State) : Option Span → State → Prop
  | same : Step s none s
  | move (low : ℕ) : page ∣ low → low + s.high ≤ size → Step s none {s with low := low}
  | carve (n : ℕ) (g : Span) : page ∣ n → s.low + s.high + n ≤ size →
      g.start = base + size - s.high - n → g.stop ≤ base + size - s.high →
      Step s (some g) {s with high := s.high + n}

/-- A state together with everything handed out so far. -/
structure Sound (s : State) (gs : List Span) : Prop where
  low : page ∣ s.low
  high : page ∣ s.high
  room : s.low + s.high ≤ size
  aligned : ∀ g ∈ gs, page ∣ g.start
  above : ∀ g ∈ gs, (g.outward page).Inside (base + size - s.high) (base + size)
  apart : gs.Pairwise fun g h => (g.outward page).Apart (h.outward page)

variable {base size page} {s : State} {gs : List Span}

theorem sound_start : Sound base size page {} [] where
  low := Nat.dvd_zero page
  high := Nat.dvd_zero page
  room := Nat.zero_le size
  aligned := by simp
  above := by simp
  apart := List.Pairwise.nil

theorem Sound.bottom (h : Sound base size page s gs) (hbase : page ∣ base) (hsize : page ∣ size) :
    page ∣ base + size - s.high := Nat.dvd_sub (Nat.dvd_add hbase hsize) h.high

theorem Sound.apart_low (h : Sound base size page s gs) {g : Span} (hg : g ∈ gs) :
    (g.outward page).Apart ⟨base,s.low⟩ := by
  have hr := h.room
  have ha := (h.above g hg).1
  right
  change base + s.low ≤ _
  omega

theorem Step.inside {g : Span} {s' : State} (h : Step base size page s (some g) s') :
    g.Inside base (base + size) := by
  cases h with
  | carve n g hn hroom hstart hstop => exact ⟨by omega,by omega⟩

theorem Sound.step (hpage : 0 < page) (hbase : page ∣ base) (hsize : page ∣ size)
    (h : Sound base size page s gs) {g : Option Span} {s' : State}
    (hs : Step base size page s g s') : Sound base size page s' (g.toList ++ gs) := by
  cases hs with
  | same => exact h
  | move low hlow hroom => exact ⟨hlow,h.high,hroom,h.aligned,h.above,h.apart⟩
  | carve n g hn hroom hstart hstop =>
    have hbot : page ∣ base + size - s.high - n := Nat.dvd_sub (h.bottom hbase hsize) hn
    have hg : (g.outward page).Inside (base + size - s.high - n) (base + size - s.high) :=
      (Span.outward_inside_iff hpage hbot (h.bottom hbase hsize) g).mpr ⟨hstart.ge,hstop⟩
    refine ⟨h.low,Nat.dvd_add h.high hn,by simp only; omega,?_,?_,?_⟩
    · intro k hk
      rcases List.mem_cons.mp hk with rfl | hk
      · rw [hstart]
        exact hbot
      · exact h.aligned k hk
    · intro k hk
      simp only [Nat.sub_add_eq]
      rcases List.mem_cons.mp hk with rfl | hk
      · exact ⟨hg.1,by have := hg.2; omega⟩
      · have hk := h.above k hk
        exact ⟨by have := hk.1; omega,hk.2⟩
    · refine List.pairwise_cons.mpr ⟨fun k hk => .inl ?_,h.apart⟩
      exact hg.2.trans (h.above k hk).1

end Region
end TwoEnded
end VmplApps
