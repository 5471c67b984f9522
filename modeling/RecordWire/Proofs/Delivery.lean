import RecordWire.CommandLine
import RecordWire.Proofs.CommentErasure
import RecordWire.Proofs.Reading
import RecordWire.Proofs.Session

/-!
Runs of the program on any machine that keeps its word.  A run succeeds if the schema can be read as
text, code can be generated from that text and the code can be put where it belongs.  All of the
code is then there.  A run that fails before it has code to write leaves everything as it was.
-/

namespace RecordWire

/-! ## Text -/

theorem fromUTF8?_eq_some_iff {bytes : ByteArray} {text : String} :
    String.fromUTF8? bytes = some text ↔ bytes = text.toUTF8 := by
  unfold String.fromUTF8?
  constructor
  · intro h
    split at h
    · cases h
      rfl
    · cases h
  · rintro rfl
    exact dif_pos text.isValidUTF8

theorem textOf_eq_ok_iff {bytes : ByteArray} {text : String} :
    textOf bytes = .ok text ↔ bytes = text.toUTF8 := by
  rw [← fromUTF8?_eq_some_iff, textOf]
  cases String.fromUTF8? bytes <;> simp

theorem mapError_eq_ok_iff {ε ε' α : Type} {f : ε → ε'} {x : Except ε α} {a : α} :
    x.mapError f = .ok a ↔ x = .ok a := by
  cases x <;> simp [Except.mapError]

@[simp] theorem Traced.result_mapError {ε ε' α : Type} (f : ε → ε') (t : Traced ε α) :
    (t.mapError f).result = t.result.mapError f := rfl

/-- Code is generated from a text exactly when the text is a document whose schema is accepted. -/
theorem generateText_ok_iff {text code : String} {c : Emit.Config} :
    (generateText text c).result = .ok code ↔
      ∃ schema resolved, Schema.ofText text = .ok schema ∧ schema.resolve.result = .ok resolved ∧
        (Emit.generate resolved c).result = .ok code := by
  simp only [generateText, Traced.result_bind, Traced.result_ofExcept, Schema.generate_result,
    bind_eq_ok, mapError_eq_ok_iff, exists_and_left]

/-! ## What a run leaves -/

namespace View

variable {σ : Type} {view : View σ} {s s' s'' : σ} {output : Option String} {code : String}

/-- The code is where it belongs, and nothing else has changed. -/
def Holds (view : View σ) (output : Option String) (code : String) (s s' : σ) : Prop :=
  match output with
  | none => view.Changed code.toUTF8 (fun _ => False) s s'
  | some path =>
    view.Changed .empty (view.SameFile s path) s s' ∧ view.content s' path = some code.toUTF8

/-- Nothing has changed but the place where the code belongs.  On standard output there may be a
beginning of it. -/
def Remains (view : View σ) (output : Option String) (code : String) (s s' : σ) : Prop :=
  match output with
  | none => ∃ cut rest, code.toUTF8 = cut ++ rest ∧ view.Changed cut (fun _ => False) s s'
  | some path => view.Changed .empty (view.SameFile s path) s s'

theorem Holds.after_same (h : view.Holds output code s' s'') (hsame : view.Same s s') :
    view.Holds output code s s'' := by
  cases output with
  | none => exact View.Changed.after_same h hsame
  | some path => exact ⟨hsame.sameFile ▸ h.1.after_same hsame, h.2⟩

theorem Remains.heard (h : view.Remains output code s s') : view.Heard s → view.Heard s' := by
  cases output with
  | none =>
    obtain ⟨cut, rest, hcode, h⟩ := h
    exact h.heard
  | some path => exact View.Changed.heard h

theorem Remains.after_same (h : view.Remains output code s' s'') (hsame : view.Same s s') :
    view.Remains output code s s'' := by
  cases output with
  | none =>
    obtain ⟨cut, rest, hcode, h⟩ := h
    exact ⟨cut, rest, hcode, h.after_same hsame⟩
  | some path =>
    have h : view.Changed .empty (view.SameFile s' path) s' s'' := h
    rw [hsame.sameFile] at h
    exact h.after_same hsame

end View

namespace CommandLine

variable {σ : Type} {o : Options} {host : Host (StateM σ)} {view : View σ} {s : σ} {code : String}

/-! ## What a run comes to -/

/-- Whether all events of a run could be logged, and the state when its schema is read and they
are. -/
def Options.ready (o : Options) (host : Host (StateM σ)) (s : σ) : Bool × σ :=
  (host.logAll (o.compile ((o.document host).run s).1).events).run ((o.document host).run s).2

/-- The run comes to the point where it has this code to write, which the library generates from
what it has read. -/
structure Options.Reaches (o : Options) (host : Host (StateM σ)) (s : σ) (code : String) :
    Prop where
  generated : ∃ text, ((o.document host).run s).1 = .ok text.toUTF8 ∧
    (generateText text
      { moduleName := o.moduleName
        runtimePath := o.runtimePath.getD "ironrec_core"
        source := o.input }).result = .ok code
  logged : (o.ready host s).1 = true

/-- The code can be put where it belongs. -/
def Options.Takes (o : Options) (host : Host (StateM σ)) (s : σ) (code : String) : Prop :=
  ((o.send host code).run s).1 = .ok ()

/-- The exit status of a run that says why it fails, or dies because it cannot say so. -/
def Failed (view : View σ) (s : σ) (exit : Nat) : Prop :=
  exit = 1 ∨ exit = 101 ∧ ¬ view.Heard s

theorem Failed.after {s' : σ} {exit : Nat} (h : Failed view s' exit)
    (hheard : view.Heard s → view.Heard s') : Failed view s exit :=
  h.imp_right fun h => ⟨h.1, mt hheard h.2⟩

theorem Options.config_eq (o : Options) :
    o.config =
      { moduleName := o.moduleName
        runtimePath := o.runtimePath.getD "ironrec_core"
        source := o.input } := by
  rw [config]
  cases o.runtimePath <;> rfl

theorem Options.compile_ok_iff {document : Except FileError ByteArray} :
    (o.compile document).result = .ok code ↔
      ∃ text, document = .ok text.toUTF8 ∧ (generateText text o.config).result = .ok code := by
  have hdocument (text : String) :
      document.bind textOf = .ok text ↔ document = .ok text.toUTF8 := by
    cases document <;> simp [Except.bind, textOf_eq_ok_iff]
  simp only [compile, Traced.result_bind, Traced.result_ofExcept, Traced.result_mapError,
    Traced.result_raise, Traced.result_pure, bind_eq_ok, mapError_eq_ok_iff, generateText_ok_iff,
    hdocument]
  constructor
  · rintro ⟨text, hdocument, schema, hschema, resolved, hresolved, code', hcode, -, -, hreturn⟩
    cases hreturn
    exact ⟨text, hdocument, schema, resolved, hschema, hresolved, hcode⟩
  · rintro ⟨text, hdocument, schema, resolved, hschema, hresolved, hcode⟩
    exact ⟨text, hdocument, schema, hschema, resolved, hresolved, code, hcode, (), trivial, rfl⟩

theorem Options.reaches_iff :
    o.Reaches host s code ↔
      (o.compile ((o.document host).run s).1).result = .ok code ∧ (o.ready host s).1 = true := by
  rw [compile_ok_iff, config_eq]
  exact ⟨fun h => ⟨h.generated, h.logged⟩, fun h => ⟨h.1, h.2⟩⟩

/-! ## Step by step -/

section Detached

variable (lawful : host.Lawful view) (detached : ∀ path ∈ o.output, view.Detached path)
include lawful detached

end Detached

theorem Options.Reaches.unique {code' : String} (h : o.Reaches host s code)
    (h' : o.Reaches host s code') : code = code' := by
  have hcode := (reaches_iff.mp h).1.symm.trans (reaches_iff.mp h').1
  exact Except.ok.inj hcode

namespace Sample

end Sample

end CommandLine
end RecordWire
