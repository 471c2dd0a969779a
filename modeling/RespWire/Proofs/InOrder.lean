import RespWire.Link
import RespWire.Proofs.Decoded
import RespWire.Proofs.Lasting

/-!
# Values come out in the order in which they went in

Between the two ends of a link there are values that were written and not yet
read. `Holds` says so of its state: the octets still to come, wherever they are
held, are those of these values one behind the other, and nothing but data is
to arrive. Each act changes this in its own way. A write puts a value behind the
others, a read takes the first away, a read that finds none reports the end of
the input and changes nothing, and a reset leaves none.

A caller that does all this in any order keeps a record of what it has written
and read since the last reset. By the above, what was read is the front of what
was written (`run_in_order`).
-/

namespace RespWire

namespace Feed

theorem flatMap_extend (octets : Bytes) (arrivals : List Arrival) :
    (extend.go octets arrivals).flatMap octetsOf = arrivals.flatMap octetsOf ++
      octets := by
  fun_induction extend.go octets arrivals with
  | case1 => simp [octetsOf]
  | case2 before => simp [octetsOf]
  | case3 arrival later hlast ih =>
      rw [List.flatMap_cons, List.flatMap_cons, ih, List.append_assoc]

theorem unread_extend (f : Feed) (octets : Bytes) :
    (f.extend octets).unread = f.unread ++ octets := by
  unfold extend
  split
  · next hempty => rw [List.isEmpty_iff.mp hempty, List.append_nil]
  · exact flatMap_extend octets f.arrivals

theorem all_isData_extend {octets : Bytes} (hne : octets ≠ [])
    {arrivals : List Arrival} (h : arrivals.all isData = true) :
    (extend.go octets arrivals).all isData = true := by
  fun_induction extend.go octets arrivals with
  | case1 => simpa [isData] using hne
  | case2 before => simp [isData, hne]
  | case3 arrival later hlast ih =>
      rw [List.all_cons, Bool.and_eq_true] at h
      rw [List.all_cons, h.1, ih h.2]
      rfl

theorem DataOnly.extend {f : Feed} (h : f.DataOnly) (octets : Bytes) :
    (f.extend octets).DataOnly := by
  unfold Feed.extend
  split
  · exact h
  · next hsome =>
      exact ⟨all_isData_extend (fun hnil => hsome (List.isEmpty_iff.mpr hnil))
        h.arrivals, h.portion⟩

end Feed

/-- A value that can be written and that a reader with these options can
read. -/
structure Value.Sendable (o : Options) (v : Value) : Prop where
  encodes : ∃ octets, v.encode = .ok octets
  countable : v.Countable
  fits : v.Fits o.limits
  height : v.height ≤ o.maxDepth

theorem Reader.lasting_dataOnly (o : Options) :
    Lasting fun r => r.feed.DataOnly ∧ r.options = o where
  fill r hr := by
    refine ⟨?_, (options_of_fill r).trans hr.2⟩
    rcases fill_dataOnly hr.1 with hfill | ⟨k, after, hfill, hafter⟩
    · rw [hfill]
      exact hr.1
    · rw [hfill]
      exact hafter
  consume n r hr := hr

namespace Link

/-! ## One act -/

/-- The values that were written to a link and are still to be read. -/
structure Holds (o : Options) (queue : List Value) (l : Link) : Prop where
  data : l.reader.feed.DataOnly
  options : l.reader.options = o
  remaining : l.reader.remaining = queue.flatMap Value.octets

variable {o : Options} {queue : List Value} {l : Link} {v : Value}

theorem holds_empty (o : Options) : Holds o [] (ofBytes [] o) :=
  ⟨⟨rfl, nofun⟩, rfl, rfl⟩

theorem Holds.reset (h : Holds o queue l) : Holds o [] (l.reset []) :=
  ⟨⟨rfl, nofun⟩, h.options, rfl⟩

theorem Holds.write (h : Holds o queue l) (hv : v.Sendable o) :
    ∃ pieces after, l.write (.value v) = (.ok (), pieces, after) ∧
      Holds o (queue ++ [v]) after := by
  obtain ⟨octets, hencode⟩ := hv.encodes
  obtain ⟨-, rfl⟩ := Value.oneLine_of_encode hencode
  have htakes : l.writer.sink.TakesAll := nofun
  have hcall : Writer.Call.value v ≠ .flush := by simp
  obtain ⟨w, hperform, -, haccepted⟩ := Writer.perform_of_takesAll hcall htakes
  rw [Writer.Call.encoded, hencode] at hperform haccepted
  have hsent : w.sink.accepted = v.octets := haccepted
  refine ⟨w.sink.taken,
    { reader := { l.reader with feed := l.reader.feed.extend w.sink.accepted }
      scratch := w.scratch }, ?_, h.data.extend _, h.options, ?_⟩
  · rw [Link.write, hperform]
    rfl
  · show l.reader.buffer ++ (l.reader.feed.extend w.sink.accepted).unread = _
    rw [Feed.unread_extend, hsent, ← List.append_assoc, List.flatMap_append,
      List.flatMap_singleton, ← h.remaining, Reader.remaining]

theorem Holds.read (h : Holds o (v :: queue) l) (hv : v.Sendable o)
    (g : Bytes) :
    ∃ after, l.read .value g = (.ok (.value v.canonical), g, after) ∧
      Holds o queue after := by
  obtain ⟨octets, hencode⟩ := hv.encodes
  obtain ⟨hline, -⟩ := Value.oneLine_of_encode hencode
  have hderives : Derives l.reader.options.limits 0 v.octets v.canonical := by
    rw [h.options]
    exact Value.derives_octets hline hv.countable hv.fits 0
      ((Nat.zero_add _).symm ▸ hv.height)
  obtain ⟨r, hvalue, hrest⟩ :=
    (Reader.reads_value.accepts_iff Reader.steady_value h.data.calm _ _).mpr
      ⟨v.octets, h.remaining, hderives⟩
  have hmake : Reader.Call.value.make ⟨l.reader, g⟩ =
      (.ok (.value v.canonical), ⟨r, g⟩) :=
    Step.bind_of_ok (Gather.ofRead_of_run hvalue)
  obtain ⟨hdata, hoptions⟩ :=
    (Reader.lasting_dataOnly o).of_make_ok (d := ⟨l.reader, g⟩)
      ⟨h.data, h.options⟩ hmake
  exact ⟨_, by rw [Link.read, hmake], hdata, hoptions, hrest⟩

/-- A read that comes too early changes nothing about what is to be read. -/
theorem Holds.read_early (h : Holds o [] l) (g : Bytes) :
    ∃ after, l.read .value g = (.error .endOfInput, g, after) ∧
      Holds o [] after := by
  have hmake : Reader.Call.value.make ⟨l.reader, g⟩ =
      (.error .endOfInput, ⟨(Reader.fill l.reader).2, g⟩) :=
    Reader.make_of_atEnd rfl (Reader.atEnd_of_calm h.data.calm h.remaining)
  obtain ⟨hdata, hoptions⟩ :=
    (Reader.lasting_dataOnly o).fill l.reader ⟨h.data, h.options⟩
  exact ⟨_, by rw [Link.read, hmake], hdata, hoptions,
    (Reader.remaining_fill l.reader).trans h.remaining⟩

/-! ## Any acts in any order -/

/-- What a caller does with a link. -/
inductive Act where
  | write (v : Value)
  | read
  /-- Both ends are given a new loop with nothing in it. -/
  | reset

/-- What a caller has seen since the last reset. -/
structure Record where
  /-- The values that were written. -/
  written : List Value := []
  /-- The values that were read. -/
  answers : List Value := []
  /-- What was reported where a write or a read failed. -/
  faults : List Fault := []

namespace Act

/-- Does one act and records it. -/
def perform : Act → Record × Link → Record × Link
  | write v, (record, l) =>
      match l.write (.value v) with
      | (.ok _, _, after) =>
          ({ record with written := record.written ++ [v] }, after)
      | (.error f, _, after) =>
          ({ record with faults := record.faults ++ [f] }, after)
  | read, (record, l) =>
      match l.read .value [] with
      | (.ok (.value v), _, after) =>
          ({ record with answers := record.answers ++ [v] }, after)
      | (.ok _, _, after) => (record, after)
      | (.error f, _, after) =>
          ({ record with faults := record.faults ++ [f] }, after)
  | reset, (_, l) => ({}, l.reset [])

end Act

/-- Does one act after the other with a link whose loop is empty. -/
def run (o : Options) (acts : List Act) : Record × Link :=
  acts.foldl (fun s act => act.perform s) ({}, ofBytes [] o)

/-- What was read is the front of what was written, and the rest is still to be
read. A read that found nothing has reported the end of the input. -/
structure InOrder (o : Options) (done queue : List Value) (s : Record × Link) :
    Prop where
  written : s.1.written = done ++ queue
  answers : s.1.answers = done.map Value.canonical
  faults : ∀ f ∈ s.1.faults, f = .endOfInput
  sendable : ∀ v ∈ queue, v.Sendable o
  holds : Holds o queue s.2

theorem inOrder_empty (o : Options) : InOrder o [] [] ({}, ofBytes [] o) :=
  ⟨rfl, rfl, nofun, nofun, holds_empty o⟩

theorem InOrder.perform {done : List Value} {s : Record × Link}
    (h : InOrder o done queue s) (act : Act)
    (hact : ∀ v, act = .write v → v.Sendable o) :
    ∃ done queue, InOrder o done queue (act.perform s) := by
  obtain ⟨record, l⟩ := s
  cases act with
  | write v =>
      obtain ⟨pieces, after, hwrite, hafter⟩ := h.holds.write (hact v rfl)
      refine ⟨done, queue ++ [v], ?_⟩
      simp only [Act.perform, hwrite]
      refine ⟨?_, h.answers, h.faults, ?_, hafter⟩
      · rw [← List.append_assoc, ← h.written]
      · intro u hu
        rcases List.mem_append.mp hu with hu | hu
        · exact h.sendable u hu
        · exact List.mem_singleton.mp hu ▸ hact v rfl
  | read =>
      cases queue with
      | nil =>
          obtain ⟨after, hread, hafter⟩ := h.holds.read_early []
          refine ⟨done, [], ?_⟩
          simp only [Act.perform, hread]
          refine ⟨h.written, h.answers, ?_, nofun, hafter⟩
          intro f hf
          rcases List.mem_append.mp hf with hf | hf
          · exact h.faults f hf
          · exact List.mem_singleton.mp hf
      | cons v queue =>
          obtain ⟨after, hread, hafter⟩ :=
            h.holds.read (h.sendable v (.head _)) []
          refine ⟨done ++ [v], queue, ?_⟩
          simp only [Act.perform, hread]
          refine ⟨?_, ?_, h.faults, fun u hu => h.sendable u (.tail _ hu),
            hafter⟩
          · rw [List.append_assoc]
            exact h.written
          · rw [List.map_append, ← h.answers]
            rfl
  | reset => exact ⟨[], [], rfl, rfl, nofun, nofun, h.holds.reset⟩

theorem InOrder.foldl {done : List Value} {s : Record × Link}
    (h : InOrder o done queue s) (acts : List Act)
    (hacts : ∀ v, Act.write v ∈ acts → v.Sendable o) :
    ∃ done queue,
      InOrder o done queue (acts.foldl (fun s act => act.perform s) s) := by
  induction acts generalizing done queue s with
  | nil => exact ⟨done, queue, h⟩
  | cons act acts ih =>
      obtain ⟨done', queue', hafter⟩ :=
        h.perform act fun v hv => hacts v (hv ▸ .head _)
      exact ih hafter fun v hv => hacts v (.tail _ hv)

/-- However writes, reads and resets follow one another, what was read since the
last reset is the front of what was written since then, one value for one value,
but for doubles that are not numbers. What is still to come is just the octets
of the other values, and the next read answers the first of them. If there is
none it reports the end of the input and takes nothing, and no other fault is
ever reported. The options stay, and a reset leaves nothing to be read. -/
theorem run_in_order {o : Options} {acts : List Act}
    (hacts : ∀ v, Act.write v ∈ acts → v.Sendable o) :
    let record := (run o acts).1
    let l := (run o acts).2
    ∃ done queue, record.written = done ++ queue ∧
      record.answers = done.map Value.canonical ∧
      (∀ f ∈ record.faults, f = .endOfInput) ∧ l.reader.options = o ∧
      l.reader.remaining = queue.flatMap Value.octets ∧
      (∀ g v later, queue = v :: later →
        ∃ after, l.read .value g = (.ok (.value v.canonical), g, after)) ∧
      (∀ g, queue = [] →
        ∃ after, l.read .value g = (.error .endOfInput, g, after) ∧
        after.reader.remaining = l.reader.remaining) ∧
      (∀ v, v.Sendable o → (l.write (.value v)).1 = .ok ()) ∧
      (l.reset []).reader.remaining = [] ∧ (l.reset []).reader.options = o := by
  obtain ⟨done, queue, h⟩ := (inOrder_empty o).foldl acts hacts
  refine ⟨done, queue, h.written, h.answers, h.faults, h.holds.options,
    h.holds.remaining, ?_, ?_, ?_, rfl, h.holds.options⟩
  · rintro g v later rfl
    obtain ⟨after, hread, -⟩ := h.holds.read (h.sendable v (.head _)) g
    exact ⟨after, hread⟩
  · rintro g rfl
    obtain ⟨after, hread, hafter⟩ := h.holds.read_early g
    exact ⟨after, hread, hafter.remaining.trans h.holds.remaining.symm⟩
  · intro v hv
    obtain ⟨pieces, after, hwrite, -⟩ := h.holds.write hv
    exact congrArg Prod.fst hwrite

/-- Four octets in one fill. A read comes too early, and an octet of the last of
four values is held when both ends are reset. Of the two values written after
that one is read, and the other comes next. -/
theorem run_in_order_reset :
    let o : Options := { sizeLimit := 2, maxDepth := 1, bufferSize := 4 }
    let old : List Act :=
      [.write (.integer 7), .write (.blob .string (.ofChars ['a', 'b'])), .read,
        .read, .read, .write .null, .write (.boolean true), .read]
    let acts : List Act :=
      old ++ [.reset, .write (.array [.integer 1]),
        .write (.simple .error (.ofChars ['e'])), .read]
    (∀ v, Act.write v ∈ acts → v.Sendable o) ∧
      (run o old).1.faults = [.endOfInput] ∧
      (run o old).2.reader.buffer = .ofChars ['#'] ∧
      (run o acts).1.answers.map Value.octets =
        [.ofChars "*1\r\n:1\r\n".toList] ∧
      ∃ (v : Value) (after : Link), v.octets = .ofChars "-e\r\n".toList ∧
        (run o acts).2.read .value [] =
          (.ok (.value v.canonical), [], after) := by
  intro o old acts
  have hacts : ∀ v, Act.write v ∈ acts → v.Sendable o := by
    intro v hv
    have hv :
        v ∈ [.integer 7, .blob .string (.ofChars ['a', 'b']), .null,
          .boolean true,
        .array [.integer 1], .simple .error (.ofChars ['e'])] := by
          simpa [acts, old] using hv
    simp only [List.mem_cons, List.not_mem_nil, or_false] at hv
    rcases hv with rfl | rfl | rfl | rfl | rfl | rfl <;>
      exact ⟨⟨_, by with_unfolding_all rfl⟩, by decide, by decide, by decide⟩
  have hwritten : (run o acts).1.written.map Value.octets =
      [.ofChars "*1\r\n:1\r\n".toList, .ofChars "-e\r\n".toList] := by
        decide +kernel
  have hanswers : (run o acts).1.answers.map Value.octets =
      [.ofChars "*1\r\n:1\r\n".toList] := by
    decide +kernel
  obtain ⟨done, queue, h, hdone, -, -, -, hnext, -⟩ := run_in_order hacts
  refine ⟨hacts, by decide +kernel, by decide +kernel, hanswers, ?_⟩
  rw [h, List.map_append] at hwritten
  rw [hdone, List.map_map] at hanswers
  have hone : done.length = 1 := by simpa using congrArg List.length hanswers
  have hboth : done.length + queue.length = 2 := by
    simpa using congrArg List.length hwritten
  have hleft : queue.length = 1 := by omega
  obtain ⟨u, rfl⟩ := List.length_eq_one_iff.mp hone
  obtain ⟨v, rfl⟩ := List.length_eq_one_iff.mp hleft
  obtain ⟨after, hread⟩ := hnext [] v [] rfl
  exact ⟨v, after, (List.cons.inj (List.cons.inj hwritten).2).1, hread⟩

end Link

end RespWire
