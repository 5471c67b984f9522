import RecordWire.Host

/-!
Machines that programs run on, known by what can be seen of them: what has been printed, and what
files hold.  A machine keeps its word if a call that succeeds has done all that it is for, and no
call does anything else.
-/

namespace RecordWire

variable {σ : Type}

theorem run_bind {α β : Type} (call : StateM σ α) (next : α → StateM σ β) (s : σ) :
    (call >>= next).run s = (next (call.run s).1).run (call.run s).2 := rfl

/-- What can be seen of a machine. -/
structure View (σ : Type) where
  printed : σ → ByteArray
  content : σ → String → Option ByteArray
  /-- Leads to a file, and not to one of the standard streams as `/dev/stdout` does. -/
  Detached : String → Prop
  /-- Two ways to write the path of one file. -/
  SameFile : σ → String → String → Prop
  /-- Standard error takes all that is written to it. -/
  Heard : σ → Prop

namespace View

variable {view : View σ} {s s' s'' : σ} {added : ByteArray} {touched : String → Prop}

/-- All that can be seen is that more has been printed and that some files have been touched. -/
structure Changed (view : View σ) (added : ByteArray) (touched : String → Prop) (s s' : σ) :
    Prop where
  printed : view.printed s' = view.printed s ++ added
  content : ∀ path, view.Detached path → ¬ touched path →
    view.content s' path = view.content s path
  heard : view.Heard s → view.Heard s'

/-- Nothing has changed that can be seen. -/
structure Same (view : View σ) (s s' : σ) : Prop extends
    view.Changed .empty (fun _ => False) s s' where
  sameFile : view.SameFile s' = view.SameFile s

theorem Same.refl (view : View σ) (s : σ) : view.Same s s where
  printed := ByteArray.append_empty.symm
  content _ _ _ := rfl
  heard := id
  sameFile := rfl

theorem Changed.after_same (h : view.Changed added touched s' s'') (hsame : view.Same s s') :
    view.Changed added touched s s'' where
  printed := by rw [h.printed, hsame.printed, ByteArray.append_empty]
  content path hpath htouched :=
    (h.content path hpath htouched).trans (hsame.content path hpath not_false)
  heard := h.heard ∘ hsame.heard

theorem Same.trans (h : view.Same s s') (h' : view.Same s' s'') : view.Same s s'' where
  toChanged := h'.toChanged.after_same h
  sameFile := h'.sameFile.trans h.sameFile

end View

namespace Host

variable {host : Host (StateM σ)} {view : View σ}

/-- The calls do what they are for.  Nothing is said of what a failed `write` leaves in the file
that it was to write. -/
structure Lawful (host : Host (StateM σ)) (view : View σ) : Prop where
  read : ∀ path s, view.Same s ((host.read path).run s).2
  readInput : ∀ s, view.Same s (host.readInput.run s).2
  write : ∀ path bytes s, view.Detached path →
    view.Changed .empty (view.SameFile s path) s ((host.write path bytes).run s).2
  write_ok : ∀ path bytes s, view.Detached path → ((host.write path bytes).run s).1 = .ok () →
    view.content ((host.write path bytes).run s).2 path = some bytes
  print : ∀ bytes s, ∃ cut rest, bytes = cut ++ rest ∧
    view.Changed cut (fun _ => False) s ((host.print bytes).run s).2
  print_ok : ∀ bytes s, ((host.print bytes).run s).1 = .ok () →
    view.Changed bytes (fun _ => False) s ((host.print bytes).run s).2
  report : ∀ message s, view.Same s ((host.report message).run s).2
  report_heard : ∀ message s, view.Heard s → ((host.report message).run s).1 = true
  log : ∀ event s, view.Same s ((host.log event).run s).2
  log_heard : ∀ event s, view.Heard s → ((host.log event).run s).1 = true

theorem logAll_cons (event : Event) (rest : List Event) (s : σ) :
    (host.logAll (event :: rest)).run s =
      if ((host.log event).run s).1 then (host.logAll rest).run ((host.log event).run s).2
      else (false, ((host.log event).run s).2) := by
  rw [logAll, run_bind, apply_ite (StateT.run · _)]
  rfl

theorem Lawful.logAll (h : host.Lawful view) (events : List Event) (s : σ) :
    view.Same s ((host.logAll events).run s).2 ∧
      (view.Heard s → ((host.logAll events).run s).1 = true) := by
  induction events generalizing s with
  | nil => exact ⟨.refl view s, fun _ => rfl⟩
  | cons event rest ih =>
    obtain ⟨hsame, hheard⟩ := ih ((host.log event).run s).2
    rw [logAll_cons]
    split
    · exact ⟨(h.log event s).trans hsame, fun hs => hheard ((h.log event s).heard hs)⟩
    · rename_i hlost
      exact ⟨h.log event s, fun hs => absurd (h.log_heard event s hs) hlost⟩

end Host
end RecordWire
