import RespWire.Proofs.Skipping
import RespWire.Proofs.Trees

/-!
# What is written of a value

A value whose simple texts stay on their lines is written in full: a header and
then its children, one behind the other. What is written is a word of the
grammar for that value, and a deep skip passes over it, wherever there are
enough levels left for its height.
-/

namespace RespWire

namespace Encoding

theorem andThen_assoc (a b c : Encoding) :
    (a.andThen b).andThen c = a.andThen (b.andThen c) := by
  obtain ⟨_, sa⟩ := a
  obtain ⟨_, sb⟩ := b
  cases sa with
  | some v => rfl
  | none =>
      cases sb with
      | some v => rfl
      | none => simp only [andThen, List.append_assoc]

end Encoding

namespace Value

theorem pairsEncoding_eq (pairs : List (Value × Value)) :
    pairsEncoding pairs = itemsEncoding (flat pairs) := by
  induction pairs with
  | nil => rfl
  | cons x pairs ih =>
      obtain ⟨k, v⟩ := x
      rw [pairsEncoding, ih, Encoding.andThen_assoc]
      rfl

/-- What is written of a value. -/
def octets (v : Value) : Bytes := v.encoding.written

theorem itemsEncoding_eq_whole {vs : List Value}
    (h : ∀ c ∈ vs, c.encoding = .whole c.octets) :
    itemsEncoding vs = .whole (vs.flatMap octets) := by
  induction vs with
  | nil => rfl
  | cons v vs ih =>
      rw [itemsEncoding, h v (.head _), ih fun c hc => h c (.tail _ hc)]
      rfl

theorem encode_simple {role : Role} {line : Bytes}
    (h : Bytes.cr ∉ line ∧ Bytes.lf ∉ line) :
    Encode.simple role line = .ok ((Kind.simple role).line line) := by
  rw [Encode.simple, if_neg]
  · rfl
  · rw [List.any_eq_true]
    rintro ⟨b, hb, hend⟩
    rw [Bool.or_eq_true, beq_iff_eq, beq_iff_eq] at hend
    rcases hend with rfl | rfl
    · exact h.1 hb
    · exact h.2 hb

theorem encoding_eq_whole {v : Value} (h : v.OneLine) :
    v.encoding = .whole v.octets := by
  induction v using inductionOn with
  | _ v ih =>
      have hchildren := itemsEncoding_eq_whole fun c hc => ih c hc (h.child hc)
      cases v with
      | sequence s items =>
          rw [octets, encoding, show itemsEncoding items = _ from hchildren]
          rfl
      | pairing p pairs =>
          rw [octets, encoding, pairsEncoding_eq,
            show itemsEncoding (flat pairs) = _ from hchildren]
          rfl
      | simple role line =>
          rw [octets, encoding, encode_simple (h _ (mem_parts_self _) line rfl)]
          rfl
      | _ => rfl

theorem encode_eq_ok {v : Value} (h : v.OneLine) : v.encode = .ok v.octets := by
  rw [encode, encoding_eq_whole h]
  rfl

theorem octets_sequence {s : Sequence} {items : List Value}
    (h : (sequence s items).OneLine) :
    (sequence s items).octets =
      (Kind.aggregate (.sequence s)).line (Decimal.ofNat items.length) ++
        items.flatMap octets := by
  have hitems : itemsEncoding items = .whole (items.flatMap octets) :=
    itemsEncoding_eq_whole fun c hc => encoding_eq_whole (h.child hc)
  rw [octets, encoding, hitems]
  rfl

theorem octets_pairing {p : Pairing} {pairs : List (Value × Value)}
    (h : (pairing p pairs).OneLine) :
    (pairing p pairs).octets =
      (Kind.aggregate (.pairing p)).line (Decimal.ofNat pairs.length) ++
        (flat pairs).flatMap octets := by
  have hpairs : itemsEncoding (flat pairs) =
      .whole ((flat pairs).flatMap octets) :=
    itemsEncoding_eq_whole fun c hc => encoding_eq_whole (h.child hc)
  rw [octets, encoding, pairsEncoding_eq, hpairs]
  rfl

/-! ## Words of the grammar -/

theorem counted_encode {l : Limits} (k : Kind) {body : Bytes}
    (hlength : body.length < 2 ^ 63) (hsize : l.Admits body.length) :
    Counted l k (Encode.counted k body) body := by
  refine ⟨Decimal.ofNat body.length, count_ofNat hlength, hsize, ?_⟩
  rw [Encode.counted, List.append_assoc]
  rfl

theorem fits_toInt (n : Int64) : Reader.fits n.toInt = true := by
  rw [Reader.fits_iff]
  exact ⟨n.le_toInt, n.toInt_lt⟩

theorem derivesItems_octets {l : Limits} {depth : Nat} {vs : List Value}
    (h : ∀ c ∈ vs, depth ≤ l.depth ∧ Derives l depth c.octets c.canonical) :
    DerivesItems l depth (vs.flatMap octets) (vs.map canonical) := by
  induction vs with
  | nil => exact .nil
  | cons v vs ih =>
      obtain ⟨hdepth, hv⟩ := h v (.head _)
      exact .cons hdepth hv (ih fun c hc => h c (.tail _ hc))

theorem derivesPairs_octets {l : Limits} {depth : Nat}
    {pairs : List (Value × Value)}
    (h : ∀ c ∈ flat pairs,
      depth ≤ l.depth ∧ Derives l depth c.octets c.canonical) :
    DerivesPairs l depth ((flat pairs).flatMap octets)
      (pairs.map fun x => (x.1.canonical, x.2.canonical)) := by
  induction pairs with
  | nil => exact .nil
  | cons x pairs ih =>
      obtain ⟨hdepth, hkey⟩ := h x.1 (.head _)
      obtain ⟨-, hvalue⟩ := h x.2 (.tail _ (.head _))
      exact .cons hdepth hkey hvalue (ih fun c hc => h c (.tail _ (.tail _ hc)))

/-- What is written of a value is a word for it, at every depth that leaves room
for its height. -/
theorem derives_octets {l : Limits} {v : Value} (hline : v.OneLine)
    (hcount : v.Countable) (hsize : v.Fits l) (depth : Nat)
    (hdepth : depth + v.height ≤ l.depth) :
    Derives l depth v.octets v.canonical := by
  induction v using inductionOn generalizing depth with
  | _ v ih =>
      have hchildren : ∀ c ∈ v.children,
          depth + 1 ≤ l.depth ∧ Derives l (depth + 1) c.octets c.canonical :=
            fun c hc => by
        have hlt := height_lt_of_mem hc
        exact ⟨by omega,
          ih c hc (hline.child hc) (hcount.child hc) (hsize.child hc) _
            (by omega)⟩
      have hlines := hline v (mem_parts_self v)
      have hcounts := hcount v (mem_parts_self v)
      have hsizes := hsize v (mem_parts_self v)
      cases v with
      | sequence s items =>
          rw [octets_sequence hline, canonical, itemsCanonical_eq]
          refine .sequence ?_ (derivesItems_octets hchildren)
          rw [List.length_map]
          exact count_ofNat (hcounts _ rfl)
      | pairing p pairs =>
          rw [octets_pairing hline, canonical, pairsCanonical_eq]
          refine .pairing ?_ (derivesPairs_octets hchildren)
          rw [List.length_map]
          exact count_ofNat (hcounts _ rfl)
      | blob role p =>
          exact .blob (counted_encode _ (hcounts _ rfl) (hsizes _ rfl))
      | simple role line =>
          rw [octets, encoding, encode_simple (hlines _ rfl)]
          exact .simple (hlines _ rfl).2 (hsizes _ rfl)
      | verbatim format text =>
          exact .verbatim (counted_encode _ (hcounts _ rfl) (hsizes _ rfl))
      | bigNumber n =>
          exact .bigNumber (.numeral (numeral_ofInt n)) (hsizes _ rfl)
      | boolean b => exact .boolean b
      | double x =>
          show Derives l depth (Encode.double x) _
          rw [Double.encode_eq_line]
          exact .double (Double.ofText?_wireText x) (hsizes _ rfl)
      | integer n =>
          have h : Derives l depth (Kind.integer.line (Decimal.ofInt n.toInt))
              (.integer (Int64.ofInt n.toInt)) :=
                .integer (numeral_ofInt _) (fits_toInt n)
          rwa [Int64.ofInt_toInt] at h
      | null => exact .null

/-! ## What is skipped -/

theorem many_octets {L : Bytes → Kind → Prop} {vs : List Value}
    (h : ∀ c ∈ vs, L c.octets c.kind) :
    Reader.Many L (vs.flatMap octets) (vs.map kind) := by
  induction vs with
  | nil => exact .nil
  | cons v vs ih =>
      exact .cons (h v (.head _)) (ih fun c hc => h c (.tail _ hc))

theorem length_flat (pairs : List (Value × Value)) :
    (flat pairs).length = pairs.length * 2 := by
  induction pairs with
  | nil => rfl
  | cons x pairs ih =>
      show (flat pairs).length + 2 = (pairs.length + 1) * 2
      omega

/-- A deep skip passes what is written of a value as soon as there are more
levels than the value is high. -/
theorem skips_octets {l : Limits} {v : Value} (hline : v.OneLine)
    (hcount : v.Countable) (hsize : v.Fits l) (levels : Nat)
    (hlevels : v.height < levels) :
    Skips l levels v.octets v.kind := by
  induction v using inductionOn generalizing levels with
  | _ v ih =>
      obtain ⟨levels, rfl⟩ :=
        Nat.exists_eq_add_one_of_ne_zero (Nat.ne_zero_of_lt hlevels)
      have hchildren : ∀ c ∈ v.children, Skips l levels c.octets c.kind :=
        fun c hc => by
        have hlt := height_lt_of_mem hc
        exact ih c hc (hline.child hc) (hcount.child hc) (hsize.child hc) levels
          (by omega)
      have hcounts := hcount v (mem_parts_self v)
      have hderives := derives_octets hline hcount hsize 0
      cases v with
      | sequence s items =>
          rw [octets_sequence hline]
          refine SkipsOver.counted (count_ofNat (hcounts _ rfl)) ?_
            (many_octets hchildren)
          rw [List.length_map]
          exact (Nat.mul_one _).symm
      | pairing p pairs =>
          rw [octets_pairing hline]
          refine SkipsOver.counted (count_ofNat (hcounts _ rfl)) ?_
            (many_octets hchildren)
          rw [List.length_map, length_flat]
          rfl
      | _ => exact (hderives (Nat.zero_le _)).skipsOver nofun

end Value

end RespWire
