import RespWire.Proofs.Gathering

/-!
# The languages of scalars

Values that hold no others: booleans, numbers of three sorts, null and the
close of a stream. Big numbers and doubles are lines whose text is judged once
the line is taken. The judgement of the reader is that of the grammar, and a
text that passes it has no line feed in it, so the line that was taken is the
line that the grammar means.
-/

namespace RespWire

/-! ## Texts of numbers -/

theorem Digits.notMem {ds : Bytes} (h : Digits ds) {b : UInt8}
    (hb : Decimal.isDigit b = false) :
    b ∉ ds := fun hmem => by
  rw [h.isDigit b hmem] at hb
  cases hb

theorem SignedNumeral.lf_notMem {text : Bytes} {n : Int}
    (h : SignedNumeral text n) :
    Bytes.lf ∉ text := by
  cases h with
  | numeral h =>
      cases h with
      | plain hds => exact hds.notMem rfl
      | negative hds =>
          rw [List.mem_cons, not_or]
          exact ⟨by decide, hds.notMem rfl⟩
  | positive hds =>
      rw [List.mem_cons, not_or]
      exact ⟨by decide, hds.notMem rfl⟩

/-- A text without a sign comes from a text with the same octets but for the
sign. -/
theorem Decimal.signed_cases (text : Bytes) :
    (Decimal.signed text = (false, text) ∧
      ∀ b t, text = b :: t → b ≠ Decimal.minus ∧ b ≠ Decimal.plus) ∨
    ∃ negative t, Decimal.signed text = (negative, t) ∧
      text = (if negative = true then Decimal.minus else Decimal.plus) ::
        t := by
  cases text with
  | nil => exact Or.inl ⟨rfl, nofun⟩
  | cons b t =>
      rw [Decimal.signed]
      by_cases hminus : b = Decimal.minus
      · exact Or.inr ⟨true, t, if_pos hminus, by rw [hminus]; rfl⟩
      · rw [if_neg hminus]
        by_cases hplus : b = Decimal.plus
        · exact Or.inr ⟨false, t, if_pos hplus, by rw [hplus]; rfl⟩
        · rw [if_neg hplus]
          refine Or.inl ⟨rfl, fun c u hc => ?_⟩
          obtain ⟨rfl, -⟩ := List.cons.inj hc
          exact ⟨hminus, hplus⟩

theorem Digits.iff {ds : Bytes} :
    Digits ds ↔ ¬ (ds.isEmpty || !ds.all Decimal.isDigit) = true := by
  rw [Bool.or_eq_true, not_or, List.isEmpty_iff, Bool.not_eq_true',
    Bool.not_eq_false, List.all_eq_true]
  exact ⟨fun h => ⟨h.ne_nil, h.isDigit⟩, fun h => ⟨h.1, h.2⟩⟩

theorem bigNumberLine_of_signed {text ds : Bytes} {negative : Bool} {n : Int}
    (h : Decimal.signed text = (negative, ds)) (htext : text ≠ []) :
    Reader.bigNumberLine text = .ok n ↔
      Digits ds ∧ n = Reader.signedBy negative (Decimal.value ds) := by
  rw [Reader.bigNumberLine, if_neg (by simpa using htext), h, Digits.iff]
  simp only
  split
  · next hbad =>
      refine ⟨fun hok => ?_, fun hok => ?_⟩
      · cases hok
      · exact absurd hbad hok.1
  · next hgood =>
      rw [Except.ok.injEq]
      exact ⟨fun hn => ⟨hgood, hn.symm⟩, fun hn => hn.2.symm⟩

theorem bigNumberLine_eq_ok_iff {text : Bytes} {n : Int} :
    Reader.bigNumberLine text = .ok n ↔ SignedNumeral text n := by
  rcases Decimal.signed_cases text with ⟨hsigned, hplain⟩ |
    ⟨negative, t, hsigned, rfl⟩
  · cases text with
    | nil =>
        refine ⟨nofun, fun h => ?_⟩
        cases h with
        | numeral h =>
            cases h with
            | plain hds => exact absurd rfl hds.ne_nil
    | cons b t =>
        rw [bigNumberLine_of_signed hsigned (List.cons_ne_nil b t)]
        refine ⟨fun hleft => ?_, fun h => ?_⟩
        · obtain ⟨hds, rfl⟩ := hleft
          exact .numeral (.plain hds)
        · cases h with
          | numeral h =>
              cases h with
              | plain hds => exact ⟨hds, rfl⟩
              | negative hds => exact absurd rfl (hplain _ _ rfl).1
          | positive hds => exact absurd rfl (hplain _ _ rfl).2
  · rw [bigNumberLine_of_signed hsigned (List.cons_ne_nil _ _)]
    cases negative with
    | true =>
        refine ⟨fun hleft => ?_, fun h => ?_⟩
        · obtain ⟨hds, rfl⟩ := hleft
          exact .numeral (.negative hds)
        · cases h with
          | numeral h =>
              cases h with
              | plain hds => exact absurd (hds.isDigit _ (.head _)) (by decide)
              | negative hds => exact ⟨hds, rfl⟩
    | false =>
        refine ⟨fun hleft => ?_, fun h => ?_⟩
        · obtain ⟨hds, rfl⟩ := hleft
          exact .positive hds
        · cases h with
          | numeral h =>
              cases h with
              | plain hds => exact absurd (hds.isDigit _ (.head _)) (by decide)
          | positive hds => exact ⟨hds, rfl⟩

theorem Decimal.lf_notMem_of_exponentOf? {text : Bytes} {e : Int}
    (h : Decimal.exponentOf? text = some e) : Bytes.lf ∉ text := by
  rw [Decimal.exponentOf?] at h
  rcases Decimal.signed_cases text with ⟨hsigned, -⟩ |
    ⟨negative, t, hsigned, rfl⟩
  · rw [hsigned] at h
    simp only at h
    split at h
    · cases h
    · next hgood => exact (Digits.iff.mpr hgood).notMem rfl
  · rw [hsigned] at h
    simp only at h
    split at h
    · cases h
    · next hgood =>
        rw [List.mem_cons, not_or]
        exact ⟨by cases negative <;> decide, (Digits.iff.mpr hgood).notMem rfl⟩

theorem Decimal.lf_notMem_of_scale? {text : Bytes} {e : Int}
    (h : Decimal.scale? text = some e) : Bytes.lf ∉ text := by
  cases text with
  | nil => exact List.not_mem_nil
  | cons b t =>
      rw [Decimal.scale?] at h
      split at h
      · next hb =>
          rw [List.mem_cons, not_or]
          refine ⟨fun hlf => ?_, lf_notMem_of_exponentOf? h⟩
          rw [← hlf] at hb
          exact absurd hb (by decide)
      · cases h

theorem Decimal.mem_afterDigits {b : UInt8} {text : Bytes} (h : b ∈ text)
    (hb : Decimal.isDigit b = false) : b ∈ Decimal.afterDigits text := by
  rw [← List.takeWhile_append_dropWhile (p := Decimal.isDigit) (l := text),
    List.mem_append] at h
  rcases h with h | h
  · rw [List.all_eq_true.mp List.all_takeWhile b h] at hb
    cases hb
  · exact h

/-- Digits and the point are taken off the front; all else stays. -/
theorem Decimal.mem_places {b : UInt8} {text : Bytes} (h : b ∈ text)
    (hb : Decimal.isDigit b = false) (hpoint : b ≠ '.'.toUInt8) :
    b ∈ (Decimal.places text).2.2 := by
  have hafter := Decimal.mem_afterDigits h hb
  rw [Decimal.places]
  split
  · next c rest heq =>
      rw [heq] at hafter
      split
      · next hc =>
          rcases List.mem_cons.mp hafter with rfl | hrest
          · exact absurd hc hpoint
          · exact Decimal.mem_afterDigits hrest hb
      · exact hafter
  · next heq =>
      rw [heq] at hafter
      cases hafter

theorem Decimal.lf_notMem_of_literal? {text : Bytes} {s : Decimal.Scaled}
    (h : Decimal.literal? text = some s) : Bytes.lf ∉ text := by
  intro hmem
  have hrest := Decimal.mem_places hmem rfl (by decide)
  rw [Decimal.literal?] at h
  generalize Decimal.places text = parts at h hrest
  obtain ⟨whole, behind, rest⟩ := parts
  simp only at h
  split at h
  · cases h
  · obtain ⟨e, hscale, -⟩ := Option.map_eq_some_iff.mp h
    exact Decimal.lf_notMem_of_scale? hscale hrest

theorem Decimal.lf_notMem_of_word? {text : Bytes} {m : Nat}
    (h : Decimal.word? text = some m) :
    Bytes.lf ∉ text := by
  intro hmem
  have hlower : Bytes.lf ∈ text.map Decimal.lower :=
    List.mem_map_of_mem (f := Decimal.lower) hmem
  rw [Decimal.word?] at h
  split at h
  · next hword => rw [hword] at hlower; exact absurd hlower (by decide)
  · split at h
    · next hword => rw [hword] at hlower; exact absurd hlower (by decide)
    · split at h
      · next hword => rw [hword] at hlower; exact absurd hlower (by decide)
      · cases h

theorem Decimal.lf_notMem_of_magnitude? {text : Bytes} {m : Nat}
    (h : Decimal.magnitude? text = some m) : Bytes.lf ∉ text := by
  rw [Decimal.magnitude?] at h
  split at h
  · next hliteral => exact Decimal.lf_notMem_of_literal? hliteral
  · exact Decimal.lf_notMem_of_word? h

theorem Double.lf_notMem_of_ofText? {text : Bytes} {x : Double}
    (h : Double.ofText? text = some x) : Bytes.lf ∉ text := by
  rw [Double.ofText?] at h
  rcases Decimal.signed_cases text with ⟨hsigned, -⟩ |
    ⟨negative, t, hsigned, rfl⟩
  · rw [hsigned] at h
    obtain ⟨m, hm, -⟩ := Option.map_eq_some_iff.mp h
    exact Decimal.lf_notMem_of_magnitude? hm
  · rw [hsigned] at h
    obtain ⟨m, hm, -⟩ := Option.map_eq_some_iff.mp h
    rw [List.mem_cons, not_or]
    exact ⟨by cases negative <;> decide, Decimal.lf_notMem_of_magnitude? hm⟩

theorem doubleLine_eq_ok_iff {text : Bytes} {x : Double} :
    Reader.doubleLine text = .ok x ↔ Double.ofText? text = some x := by
  cases text with
  | nil => exact ⟨nofun, nofun⟩
  | cons b t =>
      rw [Reader.doubleLine, if_neg (by simp)]
      cases Double.ofText? (b :: t) with
      | none => exact ⟨nofun, nofun⟩
      | some y => simp

namespace Reader

variable {α : Type} {o : Options}

theorem reads_close : Reads o close fun w _ => w = Marker.close := by
  refine ((reads_expect .close).bind fun _ => reads_lineEnd).congr fun w _ => ?_
  refine ⟨fun hleft => ?_, fun hright => ?_⟩
  · obtain ⟨_, _, _, rfl, rfl, rfl⟩ := hleft
    rfl
  · obtain rfl := hright
    exact ⟨_, _, (), rfl, rfl, rfl⟩

theorem reads_integer :
    Reads o integer fun w n =>
      ∃ num m, w = Kind.integer.line num ∧ Numeral num m ∧ fits m = true ∧
        n = Int64.ofInt m := by
  refine ((reads_expect .integer).bind fun _ =>
    reads_number.bind_pure Int64.ofInt).congr
    fun w n => ?_
  refine ⟨fun hleft => ?_, fun hright => ?_⟩
  · obtain ⟨_, _, _, rfl, rfl, m, rfl, num, rfl, hnum, hfits⟩ := hleft
    exact ⟨num, m, rfl, hnum, hfits, rfl⟩
  · obtain ⟨num, m, rfl, hnum, hfits, rfl⟩ := hright
    exact ⟨_, _, (), rfl, rfl, m, rfl, num, rfl, hnum, hfits⟩

theorem reads_boolean :
    Reads o boolean fun w b => w = if b then Marker.yes else Marker.no := by
  have hletter : ∀ b : Bool, (if b then Marker.yes else Marker.no) =
      Kind.boolean.lead :: (if b then 't'.toUInt8 else 'f'.toUInt8) ::
        Bytes.crlf := by decide
  refine ((reads_expect .boolean).bind (M := fun _ w b =>
    w = (if b then 't'.toUInt8 else 'f'.toUInt8) :: Bytes.crlf) fun _ =>
      ?_).congr fun w b => ?_
  · refine reads_iff.mpr fun s b after => ?_
    rw [Step.bind_of_ok (lookAhead_holding 3 s)]
    rcases s with _ | ⟨x, _ | ⟨cr, _ | ⟨lf, t⟩⟩⟩
    · exact ⟨nofun, fun h => by obtain ⟨w, rest, hs, -, rfl⟩ := h; cases hs⟩
    · exact ⟨nofun, fun h => by obtain ⟨w, rest, hs, -, rfl⟩ := h; cases hs⟩
    · exact ⟨nofun, fun h => by obtain ⟨w, rest, hs, -, rfl⟩ := h; cases hs⟩
    · simp only [List.take_succ_cons, List.take_zero]
      refine ⟨fun h => ?_, fun h => ?_⟩
      · split at h
        · next hx =>
            split at h
            · next hend =>
                cases h
                refine ⟨[x, cr, lf], t, rfl, rfl, ?_⟩
                rw [hend]
                rcases (by simpa using hx : x = _ ∨ x = _) with rfl |
                  rfl <;> rfl
            · cases h
        · cases h
      · obtain ⟨w, rest, hs, rfl, rfl⟩ := h
        cases hs
        cases b <;> rfl
  · rw [hletter]
    refine ⟨fun hleft => ?_, fun hright => ?_⟩
    · obtain ⟨_, _, _, rfl, rfl, rfl⟩ := hleft
      rfl
    · obtain rfl := hright
      exact ⟨_, _, (), rfl, rfl, rfl⟩

theorem reads_null :
    Reads o null fun w _ => w = Marker.null ∨ w = Marker.nullArray ∨
      w = Marker.nullBlob := by
  have hplain : Reads o (expect .null >>= fun _ => lineEnd) fun w _ =>
      w = Marker.null := by
    refine ((reads_expect .null).bind fun _ => reads_lineEnd).congr fun w _ =>
      ?_
    refine ⟨fun hleft => ?_, fun hright => ?_⟩
    · obtain ⟨_, _, _, rfl, rfl, rfl⟩ := hleft
      rfl
    · obtain rfl := hright
      exact ⟨_, _, (), rfl, rfl, rfl⟩
  refine reads_iff.mpr fun s u after => ?_
  rw [null, Step.bind_eq_ok]
  refine ⟨fun hleft => ?_, fun hright => ?_⟩
  · obtain ⟨k, mid, hk, hlater⟩ := hleft
    obtain ⟨rfl, t, rfl⟩ := (peekLead_eq_ok_iff _ _ _ _).mp hk
    rw [Step.bind_of_ok (earlierNull?_holding k _)] at hlater
    cases hform : k.earlierNull?.filter (·.isPrefixOf (k.lead :: t)) with
    | none =>
        rw [hform] at hlater
        obtain ⟨w, rest, hs, hafter, hw⟩ :=
          (reads_iff.mp hplain _ u after).mp hlater
        exact ⟨w, rest, hs, hafter, Or.inl hw⟩
    | some form =>
        rw [hform] at hlater
        obtain ⟨hnull, hprefix⟩ := Option.filter_eq_some_iff.mp hform
        obtain ⟨rest, hrest⟩ := List.isPrefixOf_iff_prefix.mp hprefix
        have hforms : form = Marker.nullArray ∨ form = Marker.nullBlob := by
          unfold Kind.earlierNull? at hnull
          split at hnull
          · exact Or.inl (Option.some.inj hnull).symm
          · exact Or.inr (Option.some.inj hnull).symm
          · cases hnull
        refine ⟨form, rest, hrest.symm, ?_, Or.inr hforms⟩
        rw [← hrest] at hlater
        cases hlater
        show holding o ((form ++ rest).drop form.length) = _
        rw [List.drop_left]
  · obtain ⟨w, rest, rfl, rfl, rfl | rfl | rfl⟩ := hright
    · refine ⟨.null, _, (peekLead_eq_ok_iff _ _ _ _).mpr ⟨rfl, _, rfl⟩, ?_⟩
      rw [Step.bind_of_ok (earlierNull?_holding .null _)]
      exact (reads_iff.mp hplain _ u _).mpr ⟨_, rest, rfl, rfl, rfl⟩
    · refine ⟨.array, _, (peekLead_eq_ok_iff _ _ _ _).mpr ⟨rfl, _, rfl⟩, ?_⟩
      rw [Step.bind_of_ok (earlierNull?_holding .array _)]
      rfl
    · refine ⟨.blobString, _, (peekLead_eq_ok_iff _ _ _ _).mpr ⟨rfl, _, rfl⟩,
        ?_⟩
      rw [Step.bind_of_ok (earlierNull?_holding .blobString _)]
      rfl

/-! ## Lines that are judged -/

theorem reads_answer (x : Except Fault α) :
    Reads o (fun r => (x, r)) fun w a => w = [] ∧ x = .ok a := by
  refine reads_iff.mpr fun s a after => ?_
  rw [Prod.mk.injEq]
  refine ⟨fun hleft => ?_, fun hright => ?_⟩
  · obtain ⟨hx, rfl⟩ := hleft
    exact ⟨[], s, rfl, rfl, rfl, hx⟩
  · obtain ⟨w, rest, rfl, rfl, rfl, hx⟩ := hright
    exact ⟨hx, rfl⟩

theorem reads_lineOf (k : Kind) (settle : Bytes → Except Fault α) :
    Reads o (lineOf k settle) fun w a =>
      ∃ text, w = k.line text ∧ Bytes.lf ∉ text ∧ o.limits.Admits text.length ∧
        settle text = .ok a := by
  refine ((reads_expect k).bind fun _ =>
    Gather.gathers_line.collected.bind fun x =>
      reads_answer (settle x.2)).congr fun w a => ?_
  refine ⟨fun hleft => ?_, fun hright => ?_⟩
  · obtain ⟨_, _, _, rfl, rfl, _, _, x, rfl, ⟨hlf, hadmits, rfl⟩, rfl, hx⟩ :=
      hleft
    exact ⟨x.2, by rw [List.append_nil]; rfl, hlf, hadmits, hx⟩
  · obtain ⟨text, rfl, hlf, hadmits, hx⟩ := hright
    exact ⟨_, _, (), rfl, rfl, text ++ Bytes.crlf, [], ((), text),
      (List.append_nil _).symm, ⟨hlf, hadmits, rfl⟩, rfl, hx⟩

theorem reads_double :
    Reads o double fun w x =>
      ∃ text, w = Kind.double.line text ∧ o.limits.Admits text.length ∧
        Double.ofText? text = some x := by
  refine (reads_lineOf .double doubleLine).congr fun w x => ?_
  refine ⟨fun hleft => ?_, fun hright => ?_⟩
  · obtain ⟨text, rfl, -, hadmits, hx⟩ := hleft
    exact ⟨text, rfl, hadmits, doubleLine_eq_ok_iff.mp hx⟩
  · obtain ⟨text, rfl, hadmits, hx⟩ := hright
    exact ⟨text, rfl, Double.lf_notMem_of_ofText? hx, hadmits,
      doubleLine_eq_ok_iff.mpr hx⟩

theorem reads_bigNumber :
    Reads o bigNumber fun w n =>
      ∃ text, w = Kind.bigNumber.line text ∧ o.limits.Admits text.length ∧
        SignedNumeral text n := by
  refine (reads_lineOf .bigNumber bigNumberLine).congr fun w n => ?_
  refine ⟨fun hleft => ?_, fun hright => ?_⟩
  · obtain ⟨text, rfl, -, hadmits, hn⟩ := hleft
    exact ⟨text, rfl, hadmits, bigNumberLine_eq_ok_iff.mp hn⟩
  · obtain ⟨text, rfl, hadmits, hn⟩ := hright
    exact ⟨text, rfl, hn.lf_notMem, hadmits, bigNumberLine_eq_ok_iff.mpr hn⟩

end Reader

end RespWire
