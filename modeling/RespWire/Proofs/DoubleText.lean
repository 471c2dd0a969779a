import RespWire.Decimal.Literal
import RespWire.Proofs.Rounding
import RespWire.Proofs.Scalars
import RespWire.Value.Encode

/-!
# Doubles are written so that they read back

A finite double is written as the shortest digits that read back, or as all of
its digits; both read back by `nearestDecimal_shortest`. What is left is that
a decimal number written out is the literal that it stands for. The zeros that
`positional` adds behind a coefficient make the literal another one, with a
greater coefficient and no power, but the same number.

What has no digits is written in a word. All that are not numbers share one
word, so they are read back as the one that stands for them, `canonical`.
-/

namespace RespWire

namespace Decimal

theorem leadingDigits_append {ds : Bytes} (h : ∀ d ∈ ds, isDigit d = true)
    {b : UInt8} (hb : isDigit b = false) (rest : Bytes) :
    leadingDigits (ds ++ b :: rest) = ds := by
  rw [leadingDigits, List.takeWhile_append_of_pos h,
    List.takeWhile_cons_of_neg (by simp [hb]), List.append_nil]

theorem afterDigits_append {ds : Bytes} (h : ∀ d ∈ ds, isDigit d = true)
    {b : UInt8} (hb : isDigit b = false) (rest : Bytes) :
    afterDigits (ds ++ b :: rest) = b :: rest := by
  rw [afterDigits, List.dropWhile_append_of_pos h,
    List.dropWhile_cons_of_neg (by simp [hb])]

theorem leadingDigits_of_all {ds : Bytes} (h : ∀ d ∈ ds, isDigit d = true) :
    leadingDigits ds = ds := by
  have hall : (ds ++ []).takeWhile isDigit = ds ++ [].takeWhile isDigit :=
    List.takeWhile_append_of_pos h
  rwa [List.append_nil, List.takeWhile_nil, List.append_nil] at hall

theorem afterDigits_of_all {ds : Bytes} (h : ∀ d ∈ ds, isDigit d = true) :
    afterDigits ds = [] := by
  have hall : (ds ++ []).dropWhile isDigit = [].dropWhile isDigit :=
    List.dropWhile_append_of_pos h
  rwa [List.append_nil, List.dropWhile_nil] at hall

theorem literal?_whole {ds : Bytes} (h : Digits ds) :
    literal? ds = some ⟨value ds, 0⟩ := by
  have hplaces : places ds = (ds, [], []) := by
    rw [places, afterDigits_of_all h.isDigit, leadingDigits_of_all h.isDigit]
  have hne : ds.isEmpty = false := by simpa using h.ne_nil
  rw [literal?, hplaces]
  simp [hne, scale?]

theorem literal?_point {ds fs : Bytes} (h : Digits ds)
    (hfs : ∀ d ∈ fs, isDigit d = true) :
    literal? (ds ++ '.'.toUInt8 :: fs) =
      some ⟨value (ds ++ fs), -fs.length⟩ := by
  have hplaces : places (ds ++ '.'.toUInt8 :: fs) = (ds, fs, []) := by
    rw [places, afterDigits_append h.isDigit rfl,
      leadingDigits_append h.isDigit rfl]
    simp only
    rw [if_pos trivial, afterDigits_of_all hfs, leadingDigits_of_all hfs]
  have hne : ds.isEmpty = false := by simpa using h.ne_nil
  rw [literal?, hplaces]
  simp [hne, scale?]

theorem valueFrom_zeros (m n : Nat) :
    valueFrom m (List.replicate n (digit 0)) = m * 10 ^ n := by
  induction n generalizing m with
  | zero => simp [valueFrom]
  | succ n ih =>
      rw [List.replicate_succ]
      show valueFrom (m * 10 + 0) _ = _
      rw [ih, Nat.add_zero, Nat.pow_succ, Nat.mul_assoc, Nat.mul_comm 10]

theorem isDigit_of_mem_zeros {n : Nat} :
    ∀ d ∈ List.replicate n (digit 0), isDigit d = true :=
  fun d hd => by
    rw [List.eq_of_mem_replicate hd]
    rfl

/-- A text that starts with a digit has no sign. -/
theorem signed_of_digit {b : UInt8} (hb : isDigit b = true) (t : Bytes) :
    signed (b :: t) = (false, b :: t) := by
  rcases signed_cases (b :: t) with ⟨h, -⟩ | ⟨negative, u, -, htext⟩
  · exact h
  · obtain ⟨rfl, -⟩ := List.cons.inj htext
    cases negative <;> cases hb

end Decimal

namespace Double

open Decimal (Scaled)

/-- A decimal number written out is a literal for the same number. -/
theorem literal?_positional (s : Scaled) :
    ∃ l, Decimal.literal? (positional s) = some l ∧
      nearestDecimal l = nearestDecimal s := by
  obtain ⟨c, p⟩ := s
  have hds := Decimal.digits_ofNat c
  simp only [positional]
  split
  · next hp =>
      obtain ⟨n, rfl⟩ := Int.eq_ofNat_of_zero_le hp
      have hall :
          Digits (Decimal.ofNat c ++ List.replicate n (Decimal.digit 0)) :=
        ⟨by simp [hds.ne_nil],
          fun d hd => (List.mem_append.mp hd).elim (hds.isDigit d)
          (Decimal.isDigit_of_mem_zeros d)⟩
      refine ⟨_, Decimal.literal?_whole hall, ?_⟩
      rw [Decimal.value_append, Decimal.value_ofNat, Decimal.valueFrom_zeros]
      rcases Nat.eq_zero_or_pos c with rfl | hc
      · simp [nearestDecimal]
      · rw [nearestDecimal_mul_pow hc, Int.zero_add, Int.toNat_natCast]
  · next hp =>
      generalize hn : (-p).toNat = n
      obtain rfl : p = -(n : Int) := by omega
      split
      · next hlong =>
          refine ⟨_, Decimal.literal?_point
            ⟨?_, fun d hd => hds.isDigit d (List.mem_of_mem_take hd)⟩
            (fun d hd => hds.isDigit d (List.mem_of_mem_drop hd)), ?_⟩
          · rw [Ne, List.take_eq_nil_iff, not_or]
            exact ⟨by omega, hds.ne_nil⟩
          · rw [List.take_append_drop, Decimal.value_ofNat, List.length_drop]
            congr 2
            omega
      · next hshort =>
          have hzero : Digits [Decimal.digit 0] :=
            ⟨List.cons_ne_nil _ _, fun d hd => List.mem_singleton.mp hd ▸ rfl⟩
          have hall : ∀ d ∈
              List.replicate (n - (Decimal.ofNat c).length) (Decimal.digit 0) ++
                Decimal.ofNat c, Decimal.isDigit d = true :=
            fun d hd => (List.mem_append.mp hd).elim
              (Decimal.isDigit_of_mem_zeros d) (hds.isDigit d)
          have hvalue : Decimal.value ([Decimal.digit 0] ++
              (List.replicate (n - (Decimal.ofNat c).length)
                (Decimal.digit 0) ++ Decimal.ofNat c)) = c := by
            rw [Decimal.value_append, Decimal.valueFrom_append]
            show Decimal.valueFrom (Decimal.valueFrom 0 _) _ = c
            rw [Decimal.valueFrom_zeros, Nat.zero_mul]
            exact Decimal.value_ofNat c
          have hliteral := Decimal.literal?_point hzero hall
          rw [hvalue, List.length_append, List.length_replicate] at hliteral
          refine ⟨_, hliteral, ?_⟩
          congr 2
          omega

theorem positional_eq_cons (s : Scaled) :
    ∃ b t, positional s = b :: t ∧ Decimal.isDigit b = true := by
  have hds := Decimal.digits_ofNat s.coefficient
  simp only [positional]
  cases hof : Decimal.ofNat s.coefficient with
  | nil => exact absurd hof hds.ne_nil
  | cons b t =>
      have hb : Decimal.isDigit b = true := hds.isDigit b (hof ▸ .head _)
      split
      · exact ⟨b, _, rfl, hb⟩
      · split
        · next hlong =>
            obtain ⟨k, hk⟩ : ∃ k, (b :: t).length - (-s.power).toNat = k + 1 :=
              Nat.exists_eq_succ_of_ne_zero (by omega)
            rw [hk]
            exact ⟨b, _, rfl, hb⟩
        · exact ⟨_, _, rfl, rfl⟩

theorem ofMagnitude_magnitude (x : Double) :
    ofMagnitude x.isNegative x.magnitude = x := by
  obtain ⟨bits⟩ := x
  have hlt := bits.toNat_lt
  simp only [ofMagnitude, isNegative, magnitude, decide_eq_true_eq, mk.injEq]
  rw [← UInt64.toNat_inj, UInt64.toNat_ofNat']
  split <;> omega

theorem ofText?_text {x : Double} (h : x.magnitude < infinity) :
    ofText? x.text = some x := by
  have hdigits : ∃ b t, (if x.magnitude = 0 then [Decimal.digit 0]
        else positional (shortest x.magnitude)) = b :: t ∧
          Decimal.isDigit b = true ∧
      Decimal.magnitude? (b :: t) = some x.magnitude := by
    split
    · next hzero =>
        rw [hzero]
        exact ⟨_, _, rfl, rfl, rfl⟩
    · next hpos =>
        obtain ⟨b, t, hcons, hb⟩ := positional_eq_cons (shortest x.magnitude)
        obtain ⟨l, hl, hnearest⟩ := literal?_positional (shortest x.magnitude)
        refine ⟨b, t, hcons, hb, ?_⟩
        rw [← hcons, Decimal.magnitude?, hl]
        exact congrArg some
          (hnearest.trans (nearestDecimal_shortest (Nat.pos_of_ne_zero hpos) h))
  obtain ⟨b, t, hcons, hb, hmagnitude⟩ := hdigits
  have hx := ofMagnitude_magnitude x
  simp only [text, hcons]
  cases hnegative : x.isNegative with
  | true =>
      rw [hnegative] at hx
      have hsigned : Decimal.signed (Decimal.minus :: b :: t) =
          (true, b :: t) := rfl
      rw [if_pos rfl, ofText?, hsigned]
      simp only [hmagnitude, Option.map_some, hx]
  | false =>
      rw [hnegative] at hx
      rw [if_neg Bool.false_ne_true, ofText?, Decimal.signed_of_digit hb]
      simp only [hmagnitude, Option.map_some, hx]

/-! ## All doubles -/

/-- The double that stands for what is written in the same way. -/
def canonical (x : Double) : Double := if x.isNotANumber then notANumber else x

/-- What is written of a double, be it digits or a word. -/
def wireText (x : Double) : Bytes :=
  if x.isNotANumber then .ofChars ['n', 'a', 'n']
  else if x.isInfinite then
    if x.isNegative then .ofChars ['-', 'i', 'n', 'f']
    else .ofChars ['i', 'n', 'f']
  else x.text

theorem encode_eq_line (x : Double) :
    Encode.double x = Kind.double.line x.wireText := by
  unfold Encode.double wireText
  split
  · rfl
  · split
    · split <;> rfl
    · rfl

theorem ofText?_wireText (x : Double) :
    ofText? x.wireText = some x.canonical := by
  have hx := ofMagnitude_magnitude x
  unfold wireText canonical
  split
  · rfl
  · next hnumber =>
      split
      · next hinfinite =>
          rw [isInfinite, beq_iff_eq] at hinfinite
          rw [hinfinite] at hx
          cases hnegative : x.isNegative with
          | true =>
              rw [hnegative] at hx
              rw [← hx]
              rfl
          | false =>
              rw [hnegative] at hx
              rw [← hx]
              rfl
      · next hfinite =>
          refine ofText?_text ?_
          simp only [isNotANumber, isInfinite, decide_eq_true_eq,
            beq_iff_eq] at hnumber hfinite
          omega

end Double

end RespWire
