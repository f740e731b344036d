import TreeWalk.Proofs.Evaluation.Composition

/-!
# Machines with the standard functions

Where a host has not added functions, lists are in order after every run, also after one that has come to no good
end.
-/

namespace TreeWalk

/-- Only the functions that come with the language have been used on the machine. Between two runs a host may
change all but the heap. -/
inductive Machine.Standard : Machine → Prop where
  | initial (echo : Bool) (limit : Option Nat) (clock : Nat → Float) : Standard (.initial echo limit clock)
  | host {m m' : Machine} (h : Standard m) (hheap : m'.heap = m.heap) : Standard m'
  | run {m : Machine} (h : Standard m) (steps : Nat) (program : List Stmt) :
    Standard (stateBehind (Evaluation.program steps program m))

theorem Mirrors.lifted {α : Type} (x : Run α) (r : Recording) : withoutRecords (Recorder.lift x r) = x r.machine :=
  Mirrors.lift x r

theorem Settles.ordered {α : Type} {lists : Nat} {post : Nat → α → Prop} {result : EStateM.Result Stop Machine α}
    (h : Settles lists post result) : (stateBehind result).heap.Ordered := by
  cases result with
  | ok _ _ => exact h.1
  | error _ _ => exact h

theorem settles_writeLine {lists : Nat} {post : Nat → Unit → Prop} (origin : Origin) (v : Value) {m : Machine}
    (hm : m.heap.Ordered) (hsize : m.heap.lists.size = lists) (hpost : post lists ()) :
    Settles lists post (Run.writeLine origin v m) := by
  cases hline : Run.lineOf? m v with
  | none =>
    rw [Run.writeLine_of_endless hline]
    exact hm
  | some line =>
    rw [Run.writeLine_of_line hline]
    split
    · exact ⟨hm, Nat.le_of_eq hsize.symm, hsize ▸ hpost⟩
    · exact hm

theorem settles_bind {α β : Type} {lists : Nat} {mid : Nat → α → Prop} {post : Nat → β → Prop} {x : Recorder α}
    {f : α → Recorder β} {r : Recording} (hx : Settles lists mid (withoutRecords (x r)))
    (hf : ∀ a r', r'.machine.heap.Ordered → lists ≤ r'.machine.heap.lists.size → mid r'.machine.heap.lists.size a →
      Settles r'.machine.heap.lists.size post (withoutRecords (f a r'))) :
    Settles lists post (withoutRecords ((x >>= f) r)) := by
  rw [withoutRecords_bind]
  cases hxr : x r with
  | error stop r' =>
    rw [hxr] at hx
    exact hx
  | ok a r' =>
    rw [hxr] at hx
    obtain ⟨hordered, hle, hmid⟩ := hx
    exact (hf a r' hordered hle hmid).mono hle

/-- What is composed with care leaves lists in order. -/
theorem Composed.settles {careful : Prop} (hc : careful) {α : Type} {lists : Nat} {post : Nat → α → Prop}
    {x : Recorder α} (h : Composed careful lists post x) (r : Recording) (hr : r.machine.heap.Ordered)
    (hsize : r.machine.heap.lists.size = lists) : Settles lists post (withoutRecords (x r)) := by
  induction h generalizing r with
  | quiet hx =>
    rw [Mirrors.lifted]
    exact (hx r.machine fun _ => ⟨hr, hsize⟩).2 hc
  | note record _ hpost => exact ⟨hr, Nat.le_of_eq hsize.symm, hsize ▸ hpost hc⟩
  | bind _ _ ihx ihf =>
    exact settles_bind (ihx r hr hsize) fun a r' hordered hle hmid => ihf _ a (fun _ => ⟨hle, hmid⟩) r' hordered rfl
  | @nested _ _ _ x line _ ih =>
    rw [Recorder.nested_eq]
    split
    · exact hr
    · have hbody := ih r.deeper hr hsize
      cases hxr : x r.deeper <;> rw [hxr] at hbody <;> exact hbody
  | get _ _ ih => exact ih r.machine (fun _ => ⟨hr, hsize⟩) r hr hsize
  | print _ hpost =>
    rw [Mirrors.lifted]
    exact settles_writeLine .printed _ hr hsize (hpost hc)
  | @echo _ lists post v a _ hpost =>
    show Settles lists post (withoutRecords ((if r.machine.echo then _ else _ : Recorder _) r))
    split
    · have hline : Settles lists (fun lists' _ => lists' = lists)
          (withoutRecords (Recorder.lift (Run.writeLine .echoed v) r)) := by
        rw [Mirrors.lifted]
        exact settles_writeLine .echoed v hr hsize rfl
      exact settles_bind hline fun _ r' hordered _ hsame => ⟨hordered, Nat.le_refl _, hsame ▸ hpost hc⟩
    · exact ⟨hr, Nat.le_of_eq hsize.symm, hsize ▸ hpost hc⟩
  | @prompt _ lists post y text line hy =>
    rw [Mirrors.lifted, Run.write_bind]
    split
    · refine (hy _ ?_).2 hc
      exact fun _ => ⟨hr, hsize⟩
    · exact hr

theorem Machine.Standard.ordered {m : Machine} (h : m.Standard) : m.heap.Ordered := by
  induction h with
  | initial echo limit clock => exact Machine.ordered_initial echo limit clock
  | host _ hheap ih => exact hheap ▸ ih
  | @run m _ steps program ih =>
    have hsettles := (program_composed True steps m.heap.lists.size program).settles trivial ⟨m, []⟩ ih rfl
    rw [Recorder.program_mirrors] at hsettles
    exact hsettles.ordered

end TreeWalk
