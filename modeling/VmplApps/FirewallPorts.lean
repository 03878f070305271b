import VmplApps.FirewallPieces

/-! Ports of rule lines. The star and the number zero are the same in the list of rules,
`atoi` turns every word into a number, and sixteen bits of it are kept. -/
namespace VmplApps
namespace Firewall

open CText

/-- A rule applies to a port when it can change what a check answers for the port. -/
def FwRule.AppliesTo (r : FwRule) (port : BitVec 16) : Prop :=
  ∃ rules, firewallCheckBind (r::rules) port ≠ firewallCheckBind rules port ∨
    ∃ ip, firewallCheckConnect (r::rules) port ip ≠ firewallCheckConnect rules port ip

def IsDecimal (t : List Char) : Prop := t ≠ [] ∧ t.all Char.isDigit

instance (t : List Char) : Decidable (IsDecimal t) :=
  inferInstanceAs (Decidable (t ≠ [] ∧ t.all Char.isDigit))

def Kind.portWord : Kind → Option (List Char)
  | .bind s | .connect _ s => (scanWord s).map Prod.fst
  | _ => none

/-- Whatever the buffers hold and whatever text follows, the rule that the parser makes of
the line applies to a port only if the word is a decimal numeral of that port. -/
def PortExact (inetAton : List Char → Option (BitVec 32)) (l word : List Char) : Prop :=
  ∀ m after buf f, (after = [] ∨ ∃ rest, after = '\n'::rest) →
    fgets 100 ⟨l ++ after,false⟩ = (some buf,f) →
    ∃ r m', parseLine inetAton m (cString buf) = .rule r m' ∧
      ∀ port, r.AppliesTo port → IsDecimal word ∧ digitsValue word = port.toNat

/-- The word is a decimal numeral from 1 to 65535, the buffer of the line holds all of it,
and each word of the line fits its own buffer. -/
structure PortFits (l word : List Char) : Prop where
  whole : (kind (l.take 99)).portWord = some word
  room : ¬(kind (l.take 99)).Overflows
  decimal : IsDecimal word
  positive : 1 ≤ digitsValue word
  small : digitsValue word ≤ 65535

section Rule
variable {r : FwRule} {port : BitVec 16}

theorem connectApplies_zero (h : r.port = FW_PORT_ANY ∨ r.port = port) :
    connectApplies r port 0 = true := by
  have haddr : (0 : BitVec 32) &&& r.ip = 0 &&& r.mask := by
    rw [show (0 : BitVec 32) = 0#32 from rfl,BitVec.zero_and,BitVec.zero_and]
  simpa [connectApplies,haddr] using h

theorem appliesTo_iff : r.AppliesTo port ↔ r.port = FW_PORT_ANY ∨ r.port = port := by
  constructor
  · rintro ⟨rules,h⟩
    by_contra hport
    rw [not_or] at hport
    rcases h with h | ⟨ip,h⟩
    · apply h
      rw [firewallCheckBind]
      simp only [if_neg hport.1,if_neg hport.2,ite_self]
    · apply h
      have hno : connectApplies r port ip = false := by
        simp [connectApplies,hport.1,hport.2]
      rw [firewallCheckConnect]
      simp only [hno,Bool.false_eq_true,and_false,if_false]
  · intro h
    cases htype : r.type with
    | bindAllow =>
      refine ⟨[],.inl ?_⟩
      have hyes : firewallCheckBind [r] port = true := by
        rcases h with h | h <;> simp [firewallCheckBind,htype,h]
      rw [hyes]
      exact Bool.true_eq_false_eq_False
    | connectAllow =>
      refine ⟨[],.inr ⟨0,?_⟩⟩
      have hyes : firewallCheckConnect [r] port 0 = true := by
        rw [firewallCheckConnect,if_pos ⟨htype,connectApplies_zero h⟩]
      rw [hyes]
      exact Bool.true_eq_false_eq_False
    | connectDeny =>
      -- a rule to deny shows only in front of one that would allow
      let allowAll : FwRule := { type := .connectAllow, port := FW_PORT_ANY }
      have hopen : firewallCheckConnect [allowAll] port 0 = true := by
        rw [firewallCheckConnect,if_pos ⟨rfl,connectApplies_zero (.inl rfl)⟩]
      have hno : firewallCheckConnect [r,allowAll] port 0 = false := by
        rw [firewallCheckConnect,if_neg (by simp [htype]),if_pos ⟨htype,connectApplies_zero h⟩]
      refine ⟨[allowAll],.inr ⟨0,?_⟩⟩
      rw [hno,hopen]
      exact Bool.false_ne_true

theorem portOf_decimal {t : List Char} (ht : IsDecimal t) :
    (portOf t).toNat = digitsValue t % 65536 := by
  have hstar : t ≠ "*".toList := by
    rintro rfl
    exact absurd ht.2 (by decide)
  rw [portOf,if_neg hstar,atoi_digits ht.2,BitVec.ofInt_natCast,BitVec.toNat_ofNat]

end Rule

section FirstPiece
variable {inetAton : List Char → Option (BitVec 32)} {l word : List Char}

theorem parseLine_first (hnl : '\n' ∉ l) (hne : l ≠ []) {after buf : List Char} {f : Stream}
    (hafter : after = [] ∨ ∃ rest, after = '\n'::rest)
    (hread : fgets 100 ⟨l ++ after,false⟩ = (some buf,f)) (m : Scratch) :
    parseLine inetAton m (cString buf) = (kind (l.take 99)).result inetAton m := by
  by_cases hshort : l.length ≤ 98
  · rw [List.take_of_length_le (by omega)]
    rcases hafter with rfl | ⟨rest,rfl⟩
    · rw [List.append_nil,fgets_last hnl hne (by omega)] at hread
      cases hread
      exact parseLine_piece hnl hne m
    · rw [fgets_line rest hnl (by omega)] at hread
      cases hread
      exact parseLine_kind hnl (.inr rfl) (by simp) m
  · rw [fgets_long after hnl (Nat.lt_of_not_le hshort)] at hread
    cases hread
    exact parseLine_piece (fun h => hnl (List.mem_of_mem_take h)) (by simpa using hne) m

theorem fgets_some (hnl : '\n' ∉ l) (hne : l ≠ []) :
    ∃ buf f, fgets 100 ⟨l ++ [],false⟩ = (some buf,f) := by
  by_cases hshort : l.length ≤ 98
  · rw [List.append_nil]
    exact ⟨_,_,fgets_last hnl hne (by omega)⟩
  · exact ⟨_,_,fgets_long [] hnl (Nat.lt_of_not_le hshort)⟩

theorem isPrefixOf_take {keyword : List Char} {n : ℕ} (hk : keyword.length ≤ n) (s : List Char) :
    keyword.isPrefixOf (s.take n) = keyword.isPrefixOf s := by
  rw [Bool.eq_iff_iff,List.isPrefixOf_iff_prefix,List.isPrefixOf_iff_prefix]
  constructor
  · exact fun h => h.trans (List.take_prefix n s)
  · intro h
    exact List.prefix_take_iff.mpr ⟨h,hk⟩

def Kind.shorten (n : ℕ) : Kind → Kind
  | .bind s => .bind (s.take n)
  | .connect action s => .connect action (s.take n)
  | k => k

theorem portWord_shorten {k : Kind} {n : ℕ} {v : List Char} (h : (k.shorten n).portWord = some v) :
    ∃ w, k.portWord = some w ∧ v <+: w := by
  cases k with
  | skipped => cases h
  | unknown => cases h
  | bind s => exact scanWord_cut h
  | connect action s => exact scanWord_cut h

theorem kind_take (l : List Char) : ∃ n, kind (l.take 99) = (kind l).shorten n := by
  have hempty : l.take 99 = [] ↔ l = [] := by simp
  have hcut {keyword : List Char} :
      ((cString l).take 99).drop keyword.length =
        ((cString l).drop keyword.length).take (99-keyword.length) := List.drop_take
  simp only [kind,cString_take,hempty]
  rw [isPrefixOf_take (by decide),isPrefixOf_take (by decide),isPrefixOf_take (by decide),
    isPrefixOf_take (by decide)]
  split_ifs with hcomment hblank hbind hallow hdeny
  · exact ⟨0,rfl⟩
  · exact ⟨0,rfl⟩
  · exact ⟨_,congrArg Kind.bind hcut⟩
  · exact ⟨_,congrArg (Kind.connect .allow) hcut⟩
  · exact ⟨_,congrArg (Kind.connect .deny) hcut⟩
  · exact ⟨0,rfl⟩

theorem portWord_take {v : List Char} (hl : (kind l).portWord = some word)
    (h : (kind (l.take 99)).portWord = some v) : v <+: word := by
  obtain ⟨n,hn⟩ := kind_take l
  rw [hn] at h
  obtain ⟨w,hw,hstarts⟩ := portWord_shorten h
  rw [hl,Option.some.injEq] at hw
  rwa [hw]

theorem result_port {k : Kind} {m m' : Scratch} {r : FwRule}
    (h : k.result inetAton m = .rule r m') : r.port = portOf (k.portWord.getD m.port) := by
  have hover : ¬k.Overflows := by
    intro hover
    rw [result_overflow hover] at h
    cases h
  cases k with
  | skipped => cases h
  | unknown => cases h
  | bind s =>
    rw [Kind.result,parseBind_fits hover,scanWords_head] at h
    cases h
    rfl
  | connect action s =>
    rw [Kind.result,parseConnect_of_scan (scanConnect_fits hover m),scanWords_head] at h
    cases h
    rfl

theorem ne_nil_of_portWord (h : (kind l).portWord = some word) : l ≠ [] := by
  rintro rfl
  cases h

theorem PortExact.not_any (h : PortExact inetAton l word) (hnl : '\n' ∉ l) (hne : l ≠ [])
    (m : Scratch) : ∃ r m', (kind (l.take 99)).result inetAton m = .rule r m' ∧
      r.port ≠ FW_PORT_ANY ∧ IsDecimal word ∧ digitsValue word = r.port.toNat := by
  obtain ⟨buf,f,hread⟩ := fgets_some hnl hne
  obtain ⟨r,m',hline,hexact⟩ := h m [] buf f (.inl rfl) hread
  rw [parseLine_first hnl hne (.inl rfl) hread] at hline
  refine ⟨r,m',hline,fun hany => ?_,hexact r.port (appliesTo_iff.mpr (.inr rfl))⟩
  have h0 := (hexact 0 (appliesTo_iff.mpr (.inl hany))).2
  have h1 := (hexact 1 (appliesTo_iff.mpr (.inl hany))).2
  rw [h0] at h1
  exact absurd h1 (by decide)

theorem PortExact.fits (h : PortExact inetAton l word) (hnl : '\n' ∉ l)
    (hword : (kind l).portWord = some word) : PortFits l word := by
  have hne := ne_nil_of_portWord hword
  -- a star left in the buffer would show if the line had no word of its own
  obtain ⟨r,m',hresult,hany,hdec,hvalue⟩ := h.not_any hnl hne ⟨"*".toList,[],[],0⟩
  have hport := result_port hresult
  have hpos : r.port.toNat ≠ 0 := fun h0 => hany (BitVec.eq_of_toNat_eq h0)
  cases hv : (kind (l.take 99)).portWord with
  | none =>
    rw [hv] at hport
    exact absurd hport hany
  | some v =>
    obtain ⟨x,hx⟩ := portWord_take hword hv
    have hv0 : v ≠ [] := by
      rintro rfl
      rw [hv] at hport
      exact hany hport
    have hvdec : IsDecimal v := by
      refine ⟨hv0,?_⟩
      have hall := hdec.2
      rw [← hx,List.all_append,Bool.and_eq_true] at hall
      exact hall.1
    rw [hv,Option.getD_some] at hport
    rw [hport,portOf_decimal hvdec] at hvalue hpos
    -- a word that is cut names a smaller number
    have hx0 : x = [] := by
      by_contra hxne
      have hten := digitsValue_append hxne v
      rw [hx] at hten
      omega
    rw [hx0,List.append_nil] at hx
    refine ⟨hx ▸ hv,fun hover => ?_,hdec,by omega,by omega⟩
    rw [result_overflow hover] at hresult
    cases hresult

theorem PortFits.exact (h : PortFits l word) (hnl : '\n' ∉ l)
    (hword : (kind l).portWord = some word) : PortExact inetAton l word := by
  intro m after buf f hafter hread
  have hfirst : parseLine inetAton m (cString buf) = (kind (l.take 99)).result inetAton m :=
    parseLine_first hnl (ne_nil_of_portWord hword) hafter hread m
  rcases result_cases inetAton (kind (l.take 99)) m with
    ⟨hover,-⟩ | ⟨hk,-⟩ | ⟨hk,-⟩ | ⟨-,-,-,r,m',hr⟩
  · exact absurd hover h.room
  · have hwhole := h.whole
    rw [hk] at hwhole
    cases hwhole
  · have hwhole := h.whole
    rw [hk] at hwhole
    cases hwhole
  · refine ⟨r,m',hfirst.trans hr,fun port happlies => ⟨h.decimal,?_⟩⟩
    have hport := congrArg BitVec.toNat (result_port hr)
    rw [h.whole,Option.getD_some,portOf_decimal h.decimal] at hport
    have hpositive := h.positive
    have hsmall := h.small
    rcases appliesTo_iff.mp happlies with hany | rfl
    · rw [hany] at hport
      have h0 : FW_PORT_ANY.toNat = 0 := rfl
      omega
    · omega

end FirstPiece

/-- For every rule line with a port word, the rule applies to no port but the one that the
word names exactly when the word is a decimal numeral from 1 to 65535 and has room in the
buffers. The star names no port. -/
theorem port_exact_iff (inetAton : List Char → Option (BitVec 32)) {l word : List Char}
    (hnl : '\n' ∉ l) (hword : (kind l).portWord = some word) :
    PortExact inetAton l word ↔ PortFits l word :=
  ⟨fun h => h.fits hnl hword,fun h => h.exact hnl hword⟩

theorem port_exact_iff_eighty :
    PortExact dottedQuad "allow bind 80".toList "80".toList := by
  refine (port_exact_iff dottedQuad (by decide) rfl).mpr ⟨rfl,?_,by decide,by decide,by decide⟩
  rintro ⟨w,hw,hlong⟩
  cases hw
  exact absurd hlong (by decide)

/-- Zero and a service name are wildcards, a number beyond 65535 names another port, and
text behind a number is ignored. -/
theorem word_not_port :
    ¬PortExact dottedQuad "allow bind 0".toList "0".toList ∧
    ¬PortExact dottedQuad "allow bind http".toList "http".toList ∧
    ¬PortExact dottedQuad "allow bind 66770".toList "66770".toList ∧
    ¬PortExact dottedQuad "allow bind 80x".toList "80x".toList ∧
    firewallParse dottedQuad emptyScratch (some "allow bind http\n".toList) =
      .returned 0 [{ type := .bindAllow, port := FW_PORT_ANY }] ∧
    firewallCheckBind [{ type := .bindAllow, port := FW_PORT_ANY }] 22 = true := by
  refine ⟨fun h => ?_,fun h => ?_,fun h => ?_,fun h => ?_,by decide +kernel,rfl⟩
  · exact absurd (h.fits (by decide) rfl).positive (by decide)
  · exact absurd (h.fits (by decide) rfl).decimal (by decide)
  · exact absurd (h.fits (by decide) rfl).small (by decide)
  · exact absurd (h.fits (by decide) rfl).decimal (by decide)

end Firewall
end VmplApps
