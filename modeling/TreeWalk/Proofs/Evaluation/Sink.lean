import Mathlib
import TreeWalk.Proofs.Evaluation.Composition

/-!
# Limited sinks

A run that writes to a sink with room for a limited number of bytes goes on as with one that takes everything, up to
the first write that does not fit. There it stops.
-/

namespace TreeWalk

/-! ## The limited transcript -/

/-- The transcript as it would be had its sink taken so many bytes since the given entry. -/
def Transcript.limited (t : Transcript) (start limit : Nat) : Transcript :=
  { t with room := some (limit - (t.bytesFrom start).length) }

/-- The sink takes everything, and has got no more than so many bytes since the given entry. -/
structure Transcript.Fits (t : Transcript) (start limit : Nat) : Prop where
  unlimited : t.room = none
  later : start ≤ t.entries.size
  fits : (t.bytesFrom start).length ≤ limit

namespace Transcript

variable {t : Transcript} {start limit : Nat}

/-- Nothing has been written since the last entry. -/
theorem bytesFrom_size (t : Transcript) : t.bytesFrom t.entries.size = [] := by
  rw [bytesFrom, ← Array.length_toList, List.drop_length]
  rfl

theorem bytesFrom_write (h : t.Fits start limit) (origin : Origin) (bytes : List UInt8) :
    (t.write origin bytes).2.bytesFrom start = t.bytesFrom start ++ bytes := by
  simp [write, bytesFrom, h.unlimited, List.drop_append_of_le_length, h.later]

/-- What fits is written to both sinks. -/
theorem limited_write_of_fits (h : t.Fits start limit) (origin : Origin) {bytes : List UInt8}
    (hfits : (t.bytesFrom start).length + bytes.length ≤ limit) :
    (t.limited start limit).write origin bytes = (true, (t.write origin bytes).2.limited start limit) ∧
      (t.write origin bytes).2.Fits start limit := by
  have hbytes := bytesFrom_write h origin bytes
  have hroom : bytes.length ≤ limit - (t.bytesFrom start).length := by omega
  have hleft : limit - (t.bytesFrom start).length - bytes.length =
      limit - ((t.write origin bytes).2.bytesFrom start).length := by
    rw [hbytes, List.length_append]
    omega
  refine ⟨?_, ?_, ?_, ?_⟩
  · rw [limited, limited, ← hleft]
    simp [write, h.unlimited, hroom, List.take_of_length_le hroom]
  · simp [write, h.unlimited]
  · have hsize : (t.write origin bytes).2.entries.size = t.entries.size + 1 := by simp [write, h.unlimited]
    exact hsize ▸ Nat.le_succ_of_le h.later
  · rw [hbytes, List.length_append]
    exact hfits

/-- What has been written remains the beginning. -/
theorem bytesFrom_of_prefix {t' : Transcript} (h : t.entries.toList <+: t'.entries.toList) (hlater : start ≤ t.entries.size) :
    ∃ rest, t'.bytesFrom start = t.bytesFrom start ++ rest := by
  obtain ⟨more, hmore⟩ := h
  have hlength : start ≤ t.entries.toList.length := hlater
  refine ⟨more.flatMap (·.bytes), ?_⟩
  rw [bytesFrom, bytesFrom, ← hmore, List.drop_append_of_le_length hlength, List.flatMap_append]

/-- Of what does not fit only the beginning is written. -/
theorem limited_write_of_overflow (h : t.Fits start limit) (origin : Origin) {bytes : List UInt8}
    (hover : limit < (t.bytesFrom start).length + bytes.length) :
    (t.limited start limit).write origin bytes =
      (false, ⟨t.entries.push ⟨origin, bytes.take (limit - (t.bytesFrom start).length)⟩, some 0⟩) := by
  have hfits := h.fits
  have hroom : ¬bytes.length ≤ limit - (t.bytesFrom start).length := by omega
  have hleft : limit - (t.bytesFrom start).length - bytes.length = 0 := by omega
  simp [write, limited, hroom, hleft]

/-- A text is written to both sinks, or it is cut off. To the limited sink only the opening of the text may be sent. -/
theorem limited_writeText (h : t.Fits start limit) (origin : Origin) {shown text : String}
    (hshown : BeginsAs (limit - (t.bytesFrom start).length + 1) shown text) :
    (t.limited start limit).writeText origin shown = (true, (t.writeText origin text).2.limited start limit) ∧
        (t.writeText origin text).2.Fits start limit ∨
      limit < (t.bytesFrom start).length + (Lines.encode text).length ∧
        (t.limited start limit).writeText origin shown =
          (false, ⟨t.entries.push ⟨origin, (Lines.encode text).take (limit - (t.bytesFrom start).length)⟩, some 0⟩) := by
  have hlength := length_encode text
  have hfits := h.fits
  -- The opening is one byte longer than the room, so it shows also whether the text fits.
  by_cases hover : limit < (t.bytesFrom start).length + (Lines.encode text).length
  · have htext : limit - (t.bytesFrom start).length + 1 ≤ text.utf8ByteSize := by omega
    have hlong := hshown.size_le_iff.2 htext
    have hlength' := length_encode shown
    have hover' : limit < (t.bytesFrom start).length + (Lines.encode shown).length := by omega
    have htake : (Lines.encode shown).take (limit - (t.bytesFrom start).length) =
        (Lines.encode text).take (limit - (t.bytesFrom start).length) := by
      have hbegins := congrArg (List.take (limit - (t.bytesFrom start).length)) hshown.begins
      rwa [List.take_take, List.take_take, Nat.min_eq_left (Nat.le_succ _)] at hbegins
    rw [writeText, limited_write_of_overflow h origin hover', htake]
    exact .inr ⟨hover, rfl⟩
  · have hwhole : shown = text := hshown.whole (by omega)
    rw [hwhole]
    exact .inl (limited_write_of_fits h origin (Nat.le_of_not_lt hover))

end Transcript

/-- The machine as it would be had its sink taken so many bytes since the given entry. -/
def Machine.limited (m : Machine) (start limit : Nat) : Machine := { m with output := m.output.limited start limit }

/-- The machine with a sink that takes so many bytes, or everything. -/
def Machine.withRoom (m : Machine) (room : Option Nat) : Machine := { m with output := { m.output with room } }

theorem Machine.withRoom_limited {m : Machine} {start limit : Nat} (h : m.output.Fits start limit) :
    (m.limited start limit).withRoom none = m := by
  unfold limited withRoom Transcript.limited
  rw [← h.unlimited]

theorem Machine.limited_size (m : Machine) (limit : Nat) :
    m.limited m.output.entries.size limit = m.withRoom (some limit) := by
  rw [limited, Transcript.limited, Transcript.bytesFrom_size]
  rfl

/-! ## Cut off -/

/-- How a run ends when something of this origin does not fit. Reports are not written by programs. -/
def Origin.Refused (stop : Stop) : Origin → Prop
  | .printed | .echoed => stop = .fault .output
  | .prompt => ∃ line, stop = .fault (.evaluation line (.native "input failed: sink full"))
  | .report => False

/-- With one more entry. -/
def Recording.wrote (r : Recording) (e : Entry) : Recording :=
  { r with machine := { r.machine with output := (r.machine.output.write e.origin e.bytes).2 } }

/-- The runs have done the same so far. -/
structure InStep (start limit : Nat) (r r' : Recording) : Prop where
  fits : r.machine.output.Fits start limit
  machine : r'.machine = r.machine.limited start limit
  records : r'.records.map (.onMachine (·.withRoom none)) = r.records

theorem InStep.output {start limit : Nat} {r r' : Recording} (h : InStep start limit r r') :
    r'.machine.output = r.machine.output.limited start limit := by
  rw [h.machine]
  rfl

/-- The number of calls in progress changes in both. -/
theorem InStep.calls {start limit : Nat} {r r' : Recording} (h : InStep start limit r r') (f : Nat → Nat) :
    InStep start limit { r with machine := { r.machine with depth := f r.machine.depth } }
      { r' with machine := { r'.machine with depth := f r'.machine.depth } } := by
  refine ⟨h.fits, ?_, h.records⟩
  rw [h.machine]
  rfl

/-- The unlimited run goes from `begun` to `full`. On the way it comes to a `moment` at which it is about to write an
entry that does not fit, and there the limited run stops. -/
structure CutOff (start limit : Nat) (begun full cut : Recording) (stop : Stop) (moment : Recording) (e : Entry) :
    Prop where
  reached : begun.Grows moment
  fits : moment.machine.output.Fits start limit
  overflows : limit < (moment.machine.output.bytesFrom start).length + e.bytes.length
  /-- The unlimited run writes the entry and goes on. -/
  continued : (moment.wrote e).Grows full
  /-- The limited run writes what fits. -/
  written : cut.machine.output.entries =
    moment.machine.output.entries.push { e with bytes := e.bytes.take (limit - (moment.machine.output.bytesFrom start).length) }
  /-- The limited run has come to what the unlimited run has come to by then, and to nothing later. -/
  records : cut.records.map (.onMachine (·.withRoom none)) = moment.records
  refused : e.origin.Refused stop

/-- How an unlimited run and a limited one end that were in step at first. -/
inductive Limits {α : Type} (start limit : Nat) (begun : Recording) :
    (full cut : EStateM.Result Stop Recording α) → Prop where
  /-- Nothing is said of runs without an end. -/
  | unfinished (r : Recording) (cut : EStateM.Result Stop Recording α) : Limits start limit begun (.error .unfinished r) cut
  | done (a : α) {r r' : Recording} (h : InStep start limit r r') : Limits start limit begun (.ok a r) (.ok a r')
  | stopped (stop : Stop) {r r' : Recording} (h : InStep start limit r r') :
    Limits start limit begun (.error stop r) (.error stop r')
  | cut {full : EStateM.Result Stop Recording α} {r' moment : Recording} {stop : Stop} {e : Entry}
    (h : CutOff start limit begun (stateBehind full) r' stop moment e) : Limits start limit begun full (.error stop r')

namespace Limits

variable {α β : Type} {start limit : Nat} {begun r r' : Recording}

theorem before {full cut : EStateM.Result Stop Recording α} (hbegun : begun.Grows r) (h : Limits start limit r full cut) :
    Limits start limit begun full cut := by
  cases h with
  | unfinished s => exact .unfinished s cut
  | done a h => exact .done a h
  | stopped stop h => exact .stopped stop h
  | cut h => exact .cut { h with reached := hbegun.trans h.reached }

/-- What goes on in step from where the first part ends. Once the limited run has stopped, it does not go on. -/
theorem bind {x : Recorder α} {f : α → Recorder β} (hx : Limits start limit r (x r) (x r'))
    (hgrows : r.Grows (stateBehind (x r)))
    (hf : ∀ a s s', InStep start limit s s' → Limits start limit s (f a s) (f a s'))
    (hfgrows : ∀ a (s : Recording), s.Grows (stateBehind (f a s))) :
    Limits start limit r ((x >>= f) r) ((x >>= f) r') := by
  rw [bind_eq_match, bind_eq_match]
  generalize x r = full at hx hgrows ⊢
  generalize x r' = cut at hx ⊢
  cases hx with
  | unfinished s => exact .unfinished s _
  | done a h => exact (hf a _ _ h).before hgrows
  | stopped stop h => exact .stopped stop h
  | cut h =>
    -- The limited run is over, while the unlimited run may go on behind the write.
    cases full with
    | ok a s => exact .cut { h with continued := h.continued.trans (hfgrows a s) }
    | error stop s => exact .cut h

/-- One call fewer is in progress. -/
theorem shallower {full cut : EStateM.Result Stop Recording α} (h : Limits start limit r.deeper full cut) :
    Limits start limit r (shallower full) (shallower cut) := by
  cases h with
  | unfinished s => exact .unfinished _ _
  | done a h => exact .done a (h.calls (· - 1))
  | stopped stop h => exact .stopped stop (h.calls (· - 1))
  | cut h =>
    refine .cut ⟨⟨h.reached.written, h.reached.records⟩, h.fits, h.overflows, ?_, h.written, h.records, h.refused⟩
    cases full <;> exact ⟨h.continued.written, h.continued.records⟩

end Limits

/-! ## In step -/

/-- Without a write the limit does not matter. -/
theorem Quiet.limits {α : Type} {careful : Prop} (hc : ¬careful) {lists start limit : Nat} {post : Nat → α → Prop}
    {x : Run α} (h : Quiet careful lists post x) {r r' : Recording} (hr : InStep start limit r r') :
    Limits start limit r (Recorder.lift x r) (Recorder.lift x r') := by
  have hgiven : Given careful lists r.machine.heap := fun h => absurd h hc
  have hsink := h.sink hgiven
  have hlimited : x r'.machine =
      talking r.machine.echo (r.machine.output.limited start limit) (x r.machine) := by
    rw [hr.machine]
    exact (h r.machine hgiven).1 _ _
  have hstep {m : Machine} (hm : m.output = r.machine.output ∧ m.echo = r.machine.echo) :
      InStep start limit { r with machine := m }
        { r' with machine := m.talking r.machine.echo (r.machine.output.limited start limit) } := by
    refine ⟨hm.1 ▸ hr.fits, ?_, hr.records⟩
    rw [← hm.1, ← hm.2]
    rfl
  cases hxr : x r.machine with
  | ok a m =>
    rw [hxr] at hsink hlimited
    rw [Recorder.lift_of_ok hxr, Recorder.lift_of_ok hlimited]
    exact .done a (hstep hsink)
  | error stop m =>
    rw [hxr] at hsink hlimited
    rw [Recorder.lift_of_error hxr, Recorder.lift_of_error hlimited]
    exact .stopped stop (hstep hsink)

namespace InStep

variable {start limit : Nat} {r r' : Recording}

/-- The same is put on record. -/
theorem note {record : Machine → Record} (hrecord : ∀ f m, record (f m) = (record m).onMachine f)
    (h : InStep start limit r r') :
    InStep start limit { r with records := record r.machine :: r.records }
      { r' with records := record r'.machine :: r'.records } := by
  refine ⟨h.fits, h.machine, ?_⟩
  rw [List.map_cons, ← hrecord, h.machine, Machine.withRoom_limited h.fits, h.records]

/-- The same is written to both sinks. -/
theorem wrote (h : InStep start limit r r') {origin : Origin} {shown text : String}
    (hwrite : (r.machine.output.limited start limit).writeText origin shown =
      (true, (r.machine.output.writeText origin text).2.limited start limit))
    (hfits : (r.machine.output.writeText origin text).2.Fits start limit) :
    InStep start limit (r.wrote ⟨origin, Lines.encode text⟩) (r'.wrote ⟨origin, Lines.encode shown⟩) := by
  refine ⟨hfits, ?_, h.records⟩
  show ({ r'.machine with output := (r'.machine.output.writeText origin shown).2 } : Machine) = _
  rw [h.output, hwrite, h.machine]
  rfl

/-- The limited run is cut off. -/
theorem cutOff (h : InStep start limit r r') {origin : Origin} {shown text : String}
    (hover : limit < (r.machine.output.bytesFrom start).length + (Lines.encode text).length)
    (hwrite : (r.machine.output.limited start limit).writeText origin shown =
      (false, ⟨r.machine.output.entries.push
        ⟨origin, (Lines.encode text).take (limit - (r.machine.output.bytesFrom start).length)⟩, some 0⟩))
    {full : Recording} (hfull : (r.wrote ⟨origin, Lines.encode text⟩).Grows full) {stop : Stop}
    (hrefused : origin.Refused stop) :
    CutOff start limit r full (r'.wrote ⟨origin, Lines.encode shown⟩) stop r ⟨origin, Lines.encode text⟩ := by
  refine ⟨.refl r, h.fits, hover, hfull, ?_, h.records, hrefused⟩
  show (r'.machine.output.writeText origin shown).2.entries = _
  rw [h.output, hwrite]

end InStep

/-- A line is written to both sinks, or the limited run stops. -/
theorem limits_writeLine {start limit : Nat} {r r' : Recording} (h : InStep start limit r r') (origin : Origin)
    (horigin : origin.Refused (.fault .output)) (v : Value) :
    Limits start limit r (Recorder.lift (Run.writeLine origin v) r) (Recorder.lift (Run.writeLine origin v) r') := by
  have hroom := h.fits.unlimited
  cases htext : r.machine.heap.text? v with
  | none =>
    have hline : Run.lineOf? r.machine v = none := by rw [Run.lineOf?, hroom, htext]; rfl
    rw [Recorder.lift_of_error (Run.writeLine_of_endless hline origin)]
    exact .unfinished _ _
  | some text =>
    -- The limited sink is sent the opening of the text only.
    let left := limit - (r.machine.output.bytesFrom start).length
    have hline : Run.lineOf? r'.machine v = some (r.machine.heap.opening (left + 1) v ++ "\n") := by
      rw [h.machine]
      rfl
    have hcut := Run.writeLine_of_line hline origin
    rw [Recorder.lift_of_ok (Run.writeLine_of_unlimited hroom htext origin)]
    rcases Transcript.limited_writeText h.fits origin ((Heap.opening_begins htext (left + 1)).append "\n") with
      ⟨hwrite, hfits⟩ | ⟨hover, hwrite⟩
    · rw [if_pos (by rw [h.output, hwrite])] at hcut
      rw [Recorder.lift_of_ok hcut]
      exact .done () (h.wrote hwrite hfits)
    · rw [if_neg (by rw [h.output, hwrite]; exact Bool.false_ne_true)] at hcut
      rw [Recorder.lift_of_error hcut]
      exact .cut (h.cutOff hover hwrite (.refl _) horigin)

/-- A prompt is written to both sinks, or the limited run stops. -/
theorem limits_prompt {α : Type} {careful : Prop} (hc : ¬careful) {lists start limit : Nat} {post : Nat → α → Prop}
    {y : Run α} (hy : Quiet careful lists post y) {r r' : Recording} (h : InStep start limit r r') (text : String)
    (line : Nat) :
    let x : Run α := Run.write .prompt text >>= fun accepted =>
      if accepted then y else Run.fail line (.native "input failed: sink full")
    Limits start limit r (Recorder.lift x r) (Recorder.lift x r') := by
  intro x
  have hsent (s : Recording) : x s.machine =
      (if (s.machine.output.writeText .prompt text).1 then y else Run.fail line (.native "input failed: sink full"))
        (s.wrote ⟨.prompt, Lines.encode text⟩).machine := Run.write_bind ..
  have haccepted (s : Recording) (hs : (s.machine.output.writeText .prompt text).1 = true) :
      Recorder.lift x s = Recorder.lift y (s.wrote ⟨.prompt, Lines.encode text⟩) := by
    unfold Recorder.lift
    rw [hsent, if_pos hs]
    rfl
  have hwritten := haccepted r (Transcript.writeText_of_unlimited h.fits.unlimited .prompt text)
  have hgrows : r.Grows (r.wrote ⟨.prompt, Lines.encode text⟩) := .of_written (r.machine.output.prefix_write ..)
  rcases Transcript.limited_writeText h.fits .prompt (BeginsAs.refl _ text) with ⟨hwrite, hfits⟩ | ⟨hover, hwrite⟩
  -- Behind an accepted prompt nothing is written any more.
  · rw [hwritten, haccepted r' (by rw [h.output, hwrite])]
    exact (hy.limits hc (h.wrote hwrite hfits)).before hgrows
  · have hrefused : x r'.machine = .error (.fault (.evaluation line (.native "input failed: sink full")))
        (r'.wrote ⟨.prompt, Lines.encode text⟩).machine := by
      rw [hsent, h.output, hwrite]
      rfl
    rw [Recorder.lift_of_error hrefused, hwritten]
    exact .cut (h.cutOff hover hwrite ((Composed.quiet hy).grows hc _) ⟨line, rfl⟩)

theorem Composed.limits {careful : Prop} (hc : ¬careful) {α : Type} {lists start limit : Nat} {post : Nat → α → Prop}
    {x : Recorder α} (h : Composed careful lists post x) {r r' : Recording} (hr : InStep start limit r r') :
    Limits start limit r (x r) (x r') := by
  -- As long as all fits the runs are in step (`hr`), so each part starts alike in both.
  induction h generalizing r r' with
  | quiet hx => exact hx.limits hc hr
  | note record hrecord _ => exact .done () (hr.note hrecord)
  | bind hx hf ihx ihf =>
    exact .bind (ihx hr) (hx.grows hc r) (fun a s s' hs => ihf 0 a (fun h => absurd h hc) hs) fun a s =>
      (hf 0 a fun h => absurd h hc).grows hc s
  | @nested _ _ _ x line _ ih =>
    have hdepth : r'.machine.depth = r.machine.depth := by rw [hr.machine]; rfl
    rw [Recorder.nested_eq, Recorder.nested_eq, hdepth]
    split
    · exact .stopped _ hr
    · have hdeeper : InStep start limit r.deeper r'.deeper := hr.calls (· + 1)
      exact (ih hdeeper).shallower
  | @get _ _ _ k hk _ ih =>
    have hsame : k r'.machine = k r.machine := by rw [hr.machine]; exact hk r.machine r.machine.echo _
    show Limits start limit r (k r.machine r) (k r'.machine r')
    rw [hsame]
    exact ih r.machine (fun h => absurd h hc) hr
  | print _ _ => exact limits_writeLine hr .printed rfl _
  | @echo _ _ _ v a _ _ =>
    have hecho : r'.machine.echo = r.machine.echo := by rw [hr.machine]; rfl
    show Limits start limit r ((if r.machine.echo then _ else _ : Recorder _) r)
      ((if r'.machine.echo then _ else _ : Recorder _) r')
    rw [hecho]
    split
    · refine .bind (limits_writeLine hr .echoed rfl v) ?_ (fun _ _ _ hs => .done a hs) fun _ s => .refl s
      exact Recorder.lift_grows (writeLine_grows .echoed v r.machine)
    · exact .done a hr
  | prompt text line hy => exact limits_prompt hc hy hr text line

/-! ## Programs -/

namespace CutOff

variable {start limit : Nat} {begun full cut moment : Recording} {stop : Stop} {e : Entry}

/-- What the unlimited run writes. -/
theorem bytesFrom_full (h : CutOff start limit begun full cut stop moment e) :
    ∃ rest, full.machine.output.bytesFrom start = moment.machine.output.bytesFrom start ++ e.bytes ++ rest := by
  have hwrote := Transcript.bytesFrom_write h.fits e.origin e.bytes
  have hsize : start ≤ (moment.machine.output.write e.origin e.bytes).2.entries.size := by
    have hprefix := (moment.machine.output.prefix_write e.origin e.bytes).length_le
    exact Nat.le_trans h.fits.later hprefix
  rw [← hwrote]
  exact Transcript.bytesFrom_of_prefix h.continued.written hsize

theorem exceeds (h : CutOff start limit begun full cut stop moment e) :
    limit < (full.machine.output.bytesFrom start).length := by
  obtain ⟨rest, hfull⟩ := h.bytesFrom_full
  have hover := h.overflows
  rw [hfull, List.length_append, List.length_append]
  omega

/-- What the limited run writes. -/
theorem bytesFrom_cut (h : CutOff start limit begun full cut stop moment e) :
    cut.machine.output.bytesFrom start = (full.machine.output.bytesFrom start).take limit := by
  obtain ⟨rest, hfull⟩ := h.bytesFrom_full
  have hover := h.overflows
  have hlength : start ≤ moment.machine.output.entries.toList.length := h.fits.later
  have hleft : limit - (moment.machine.output.bytesFrom start).length ≤ e.bytes.length := by omega
  calc cut.machine.output.bytesFrom start
      = moment.machine.output.bytesFrom start ++ e.bytes.take (limit - (moment.machine.output.bytesFrom start).length) := by
        rw [Transcript.bytesFrom, h.written, Array.toList_push, List.drop_append_of_le_length hlength, List.flatMap_append]
        simp [Transcript.bytesFrom]
    _ = (full.machine.output.bytesFrom start).take limit := by
        rw [hfull, List.append_assoc, List.take_append, List.take_of_length_le h.fits.fits,
          List.take_append_of_le_length hleft]

end CutOff

namespace Limits

variable {α : Type} {start limit : Nat} {begun : Recording} {full cut : EStateM.Result Stop Recording α}

theorem bytesFrom (h : Limits start limit begun full cut) (hends : stopOf full ≠ some .unfinished) :
    (stateBehind cut).machine.output.bytesFrom start = ((stateBehind full).machine.output.bytesFrom start).take limit := by
  have whole {r r' : Recording} (h : InStep start limit r r') :
      r'.machine.output.bytesFrom start = (r.machine.output.bytesFrom start).take limit := by
    rw [h.machine, List.take_of_length_le h.fits.fits]
    rfl
  cases h with
  | unfinished r => exact absurd rfl hends
  | done a h => exact whole h
  | stopped stop h => exact whole h
  | cut h => exact h.bytesFrom_cut

theorem same (h : Limits start limit begun full cut) (hends : stopOf full ≠ some .unfinished)
    (hfits : ((stateBehind full).machine.output.bytesFrom start).length ≤ limit) :
    stopOf cut = stopOf full ∧ (stateBehind cut).machine = (stateBehind full).machine.limited start limit := by
  cases h with
  | unfinished r => exact absurd rfl hends
  | done a h => exact ⟨rfl, h.machine⟩
  | stopped stop h => exact ⟨rfl, h.machine⟩
  | cut h => exact absurd hfits (Nat.not_le_of_lt h.exceeds)

theorem cutOff (h : Limits start limit begun full cut) (hends : stopOf full ≠ some .unfinished)
    (hover : limit < ((stateBehind full).machine.output.bytesFrom start).length) :
    ∃ stop moment e, stopOf cut = some stop ∧
      CutOff start limit begun (stateBehind full) (stateBehind cut) stop moment e := by
  cases h with
  | unfinished r => exact absurd rfl hends
  | done a h => exact absurd h.fits.fits (Nat.not_le_of_lt hover)
  | stopped stop h => exact absurd h.fits.fits (Nat.not_le_of_lt hover)
  | cut h => exact ⟨_, _, _, rfl, h⟩

end Limits

/-- The bytes that a program writes. -/
def bytesWritten (steps : Nat) (program : List Stmt) (m : Machine) : List UInt8 :=
  (stateBehind (Evaluation.program steps program m)).output.bytesFrom m.output.entries.size

/-- A program on a machine whose sink takes everything, and on the same machine with a sink that takes so many bytes. -/
structure CutsAtLimit (m : Machine) (limit steps : Nat) (program : List Stmt) : Prop where
  /-- As much is written as the sink takes. -/
  written : bytesWritten steps program (m.withRoom (some limit)) = (bytesWritten steps program m).take limit
  /-- If the sink takes all of it, nothing changes. -/
  same : (bytesWritten steps program m).length ≤ limit →
    stopOf (Evaluation.program steps program (m.withRoom (some limit))) = stopOf (Evaluation.program steps program m) ∧
      stateBehind (Evaluation.program steps program (m.withRoom (some limit))) =
        (stateBehind (Evaluation.program steps program m)).withRoom (some (limit - (bytesWritten steps program m).length))
  /-- If not, the program stops at the first write that does not fit. -/
  cut : limit < (bytesWritten steps program m).length → ∃ stop moment e,
    stopOf (Evaluation.program steps program (m.withRoom (some limit))) = some stop ∧
      CutOff m.output.entries.size limit ⟨m, []⟩ (stateBehind (Recorder.program steps program ⟨m, []⟩))
        (stateBehind (Recorder.program steps program ⟨m.withRoom (some limit), []⟩)) stop moment e

/-- A limited sink cuts off what an unlimited one gets from a program, and there it ends the run. -/
theorem cuts_at_limit {m : Machine} (hroom : m.output.room = none) (limit : Nat) {steps : Nat} {program : List Stmt}
    (hends : stopOf (Evaluation.program steps program m) ≠ some .unfinished) : CutsAtLimit m limit steps program := by
  have hfits : m.output.Fits m.output.entries.size limit :=
    ⟨hroom, Nat.le_refl _, m.output.bytesFrom_size ▸ Nat.zero_le limit⟩
  have hstep : InStep m.output.entries.size limit ⟨m, []⟩ ⟨m.withRoom (some limit), []⟩ :=
    ⟨hfits, (m.limited_size limit).symm, rfl⟩
  have hlimits := (program_composed False steps 0 program).limits id hstep
  have hmirrors := Recorder.program_mirrors steps program
  have hfull := hmirrors.machine ⟨m, []⟩
  have hcut := hmirrors.machine ⟨m.withRoom (some limit), []⟩
  have hstop := hmirrors.stop ⟨m, []⟩
  have hstop' := hmirrors.stop ⟨m.withRoom (some limit), []⟩
  dsimp only at hfull hcut hstop hstop'
  rw [hstop] at hends
  have hwritten : bytesWritten steps program m =
      (stateBehind (Recorder.program steps program ⟨m, []⟩)).machine.output.bytesFrom m.output.entries.size := by
    rw [bytesWritten, hfull]
  refine ⟨?_, fun hle => ?_, fun hlt => ?_⟩
  · rw [hwritten, ← hlimits.bytesFrom hends, bytesWritten, hcut]
    rfl
  · rw [hwritten] at hle ⊢
    obtain ⟨hsame, hmachine⟩ := hlimits.same hends hle
    rw [hstop, hstop', hfull, hcut]
    exact ⟨hsame, hmachine⟩
  · rw [hwritten] at hlt
    rw [hstop']
    exact hlimits.cutOff hends hlt

/-- `fun() { print true; }(); print nil;` -/
def interruptedCall : List Stmt :=
  [.expression (.call (.lambda (.mk [] [.print 1 (.literal (.bool true))])) 1 []), .print 1 (.literal .nil)]

/-- A line does not fit that is printed inside a function. -/
theorem cuts_at_limit_in_call :
    (Machine.initial false none fun _ => 0).output.room = none ∧
      stopOf (Evaluation.program 9 interruptedCall (Machine.initial false none fun _ => 0)) ≠ some .unfinished ∧
      CutsAtLimit (Machine.initial false none fun _ => 0) 2 9 interruptedCall ∧
      bytesWritten 9 interruptedCall (Machine.initial false none fun _ => 0) = Lines.encode "true\nnil\n" ∧
      bytesWritten 9 interruptedCall ((Machine.initial false none fun _ => 0).withRoom (some 2)) = Lines.encode "tr" := by
  have hends : stopOf (Evaluation.program 9 interruptedCall (Machine.initial false none fun _ => 0)) ≠ some .unfinished := by
    have hdone : stopOf (Evaluation.program 9 interruptedCall (Machine.initial false none fun _ => 0)) = none := by cbv
    rw [hdone]
    exact (Option.some_ne_none _).symm
  exact ⟨rfl, hends, cuts_at_limit rfl 2 hends, by cbv, by cbv⟩

end TreeWalk
