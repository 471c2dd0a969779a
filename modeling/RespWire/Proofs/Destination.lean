import RespWire.Reader.Call

/-!
# A failed call leaves its destination alone

Reads that gather append as they go, and on whatever feed and however far they
come, what stood in the destination before stays in front (`Appends`). Cutting
the destination back to its former length therefore restores it, and as every
call that gathers runs its reads atomically, a call that fails has gathered
nothing (`Reader.restores_make`).
-/

namespace RespWire

namespace Gather

variable {α β : Type}

/-- A read that only ever appends to its destination. -/
def Appends (m : Gather α) : Prop := ∀ d, d.gathered <+: (m d).2.gathered

theorem Appends.pure (a : α) : Appends (Pure.pure a) := fun _ => List.prefix_rfl

theorem Appends.fail (e : Fault) : Appends (Step.fail e : Gather α) :=
  fun _ => List.prefix_rfl

theorem Appends.ofRead (m : Read α) : Appends (ofRead m) :=
  fun _ => List.prefix_rfl

theorem Appends.bind {m : Gather α} {f : α → Gather β} (hm : Appends m)
    (hf : ∀ a, Appends (f a)) : Appends (m >>= f) := by
  intro d
  have h := hm d
  rw [Step.bind_apply]
  generalize m d = x at h
  obtain ⟨result, after⟩ := x
  cases result with
  | ok a => exact h.trans (hf a after)
  | error e => exact h

theorem Appends.collect {m : Gather (Option α)} (hm : Appends m)
    (budget : Nat) :
    Appends (Step.collect m budget) := by
  induction budget with
  | zero => exact .pure []
  | succ budget ih =>
      refine hm.bind fun found => ?_
      cases found with
      | none => exact .pure []
      | some a => exact ih.bind fun as => .pure (a :: as)

theorem Appends.atomically {m : Gather α} (hm : Appends m) :
    Appends (atomically m) := by
  intro d
  have h := hm d
  unfold Gather.atomically
  generalize m d = x at h
  obtain ⟨result, after⟩ := x
  cases result with
  | ok a => exact h
  | error e => exact List.prefix_take_iff.mpr ⟨h, Nat.le_refl _⟩

theorem appends_bodyFrom (missing : Nat) : Appends (bodyFrom missing) := by
  induction missing using Nat.strongRecOn with
  | _ missing ih =>
      intro d
      rw [bodyFrom]
      split
      · exact List.prefix_rfl
      · next hpos =>
          split
          · exact List.prefix_rfl
          · exact List.prefix_rfl
          · next b bs r _ =>
              have hlt : missing - ((b :: bs).take missing).length <
                  missing := by
                rw [List.length_take, List.length_cons]
                omega
              exact (List.prefix_append d.gathered
                ((b :: bs).take missing)).trans
                (ih _ hlt ⟨(Reader.consume _ r).2, _⟩)

/-- Of a line, what is cut off again was gathered for it. -/
theorem prefix_settleLine {before line : Bytes} {d : Draft}
    (h : d.gathered = before ++ line) :
    before <+: (settleLine line.length d).2.gathered := by
  unfold settleLine
  simp only
  split
  · next hend =>
      simp only [Bool.and_eq_true, decide_eq_true_eq] at hend
      rw [h, List.prefix_take_iff, List.length_append]
      exact ⟨List.prefix_append _ _, by omega⟩
  · exact h ▸ List.prefix_append _ _

theorem prefix_lineFrom {before : Bytes} (line : Bytes) (d : Draft)
    (h : d.gathered = before ++ line) :
    before <+: (lineFrom line.length d).2.gathered := by
  generalize hn : d.reader.remaining.length = n
  induction n using Nat.strongRecOn generalizing line d with
  | _ n ih =>
      rw [lineFrom_apply]
      split
      · exact h ▸ List.prefix_append _ _
      · exact h ▸ List.prefix_append _ _
      · next b bs r hheld =>
          have hlt := Reader.length_remaining_lt_of_held
            (Reader.length_throughLineFeed_cons_pos b bs) hheld
          simp only
          split
          · exact h ▸ List.prefix_append _ _
          · rw [h, List.append_assoc, ← List.length_append]
            split
            · exact prefix_settleLine rfl
            · exact ih _ (hn ▸ hlt) _ _ rfl rfl

theorem appends_line : Appends line :=
  fun d => prefix_lineFrom [] d (List.append_nil _).symm

theorem appends_counted (k : Kind) : Appends (counted k) := by
  refine (Appends.ofRead _).bind fun _ => (Appends.ofRead _).bind fun n => ?_
  split
  · exact .fail _
  · exact ((Appends.ofRead _).bind fun _ => (appends_bodyFrom _).bind fun _ =>
      .ofRead _).bind
      fun _ => .pure _

theorem appends_chunk : Appends chunk := by
  refine (Appends.ofRead _).bind fun last => ?_
  split
  · exact .pure _
  · exact (appends_counted _).atomically.bind fun _ => .pure _

/-- A read whose failure leaves the destination as it was. -/
def Restores (m : Gather α) : Prop :=
  ∀ d e after, m d = (.error e, after) → after.gathered = d.gathered

theorem Appends.restores {m : Gather α} (hm : Appends m) :
    Restores (Gather.atomically m) := by
  intro d e after h
  have hd := hm d
  unfold Gather.atomically at h
  split at h
  · cases h
  · next heq =>
      cases h
      rw [heq] at hd
      exact (List.prefix_iff_eq_take.mp hd).symm

theorem Restores.pure (a : α) : Restores (Pure.pure a) :=
  fun _ _ _ h => nomatch h

theorem Restores.ofRead_bind (m : Read α) {f : α → Gather β}
    (hf : ∀ a, Restores (f a)) :
    Restores (ofRead m >>= f) := by
  intro d e after h
  rw [Step.bind_apply, Gather.ofRead] at h
  cases hm : m d.reader with
  | mk result r =>
      rw [hm] at h
      cases result with
      | ok a => exact hf a ⟨r, d.gathered⟩ e after h
      | error f =>
          cases h
          rfl

theorem Restores.bind_pure {m : Gather α} (hm : Restores m) (f : α → β) :
    Restores (m >>= fun a => Pure.pure (f a)) := by
  intro d e after h
  rw [Step.bind_apply] at h
  split at h
  · cases h
  · next heq =>
      cases h
      exact hm _ _ _ heq

theorem restores_verbatim : Restores verbatim := by
  refine Appends.restores fun d => ?_
  have h := appends_counted .verbatim d
  simp only [Step.bind_apply, mark, since]
  generalize counted .verbatim d = x at h
  obtain ⟨result, after⟩ := x
  cases result with
  | error e => exact h
  | ok n =>
      simp only
      generalize after.gathered.drop d.gathered.length = octets
      match octets with
      | [] | [_] | [_, _] | [_, _, _] => exact h
      | a :: b :: c :: separator :: text =>
          simp only
          split
          · show d.gathered <+: after.gathered.take _ ++ text
            rw [← List.prefix_iff_eq_take.mp h]
            exact List.prefix_append _ _
          · exact h

theorem restores_blob (role : Role) : Restores (blob role) := by
  refine Appends.restores ((Appends.ofRead _).bind fun streamed => ?_)
  split
  · exact .pure _
  · exact (appends_counted _).bind fun _ => .pure _

theorem restores_chunk : Restores chunk := by
  refine Restores.ofRead_bind _ fun last => ?_
  split
  · exact .pure _
  · exact (appends_counted _).restores.bind_pure _

theorem restores_chunks : Restores chunks := by
  refine Appends.restores ((Appends.ofRead _).bind fun budget => ?_)
  refine Appends.bind (Appends.collect (appends_chunk.bind fun last => ?_) _)
    fun _ => .pure _
  split
  · exact .pure _
  · exact .pure _

theorem restores_simple (role : Role) : Restores (simple role) :=
  Appends.restores ((Appends.ofRead _).bind fun _ => appends_line)

end Gather

open Gather in
/-- A call that fails leaves its destination as it was, on whatever feed. -/
theorem Reader.restores_make (call : Reader.Call) : Restores call.make := by
  cases call with
  | blob role => exact (restores_blob role).bind_pure _
  | chunk => exact restores_chunk.bind_pure _
  | chunks => exact restores_chunks.bind_pure _
  | simple role => exact (restores_simple role).bind_pure _
  | verbatim => exact restores_verbatim.bind_pure _
  | _ => exact Restores.ofRead_bind _ fun _ => .pure _

end RespWire
