import GoSplit.Draft
import GoSplit.Shading
import GoSplit.Proofs.Checked.Parser
import GoSplit.Proofs.Checked.Selectors
import GoSplit.Proofs.Edit.Outcome
import GoSplit.Proofs.Selector.Files
import GoSplit.Proofs.SourceFile.Accounting

/-!
The analysis of a source with all its checks: reading tokens, the package name, the whole file,
the packages that it uses, writing it out again, and moving its imports. None of these stops, so
no text makes the analysis leave a list or a text, cut a character, or go on without end.
-/

namespace GoSplit.Checked

open List (Forall₂)

variable {ε : Type}

/-! ### Package names -/

/-- The packages that the tokens of a source use. -/
def usedNames (src : Text) : Checked LexError (List Text) := do
  let marks ← Lexer.tokenize src
  (Reading.mk src (marks.filter fun mark => !mark.isComment)).selectors

/-- Leaving out comments, and looking only at what is known of a token. -/
theorem marks_go (pre : Text) (toks : List Token) :
    (Token.withoutComments.go pre toks).map Mark.of =
      (toks.map Mark.of).filter fun mark => !mark.isComment := by
  induction toks generalizing pre with
  | nil => rfl
  | cons t toks ih =>
    have same : (Mark.of t).isComment = t.isComment := rfl
    rw [Token.withoutComments.go]
    by_cases comment : t.isComment = true
    · rw [if_pos comment, List.map_cons, List.filter_cons_of_neg (by simp [same, comment]), ih]
    · rw [if_neg comment, List.map_cons, List.map_cons,
        List.filter_cons_of_pos (by simp [same, comment]), ih]
      rfl

theorem usedNames_eq (src : Text) :
    usedNames src = ofExcept ((Token.tokenize src).map fun toks =>
      packageSelectors (Token.withoutComments toks)) := by
  rw [usedNames, Lexer.tokenize_eq]
  cases read : Token.tokenize src with
  | error e => rfl
  | ok toks =>
    have code := (Reading.of_tokenize read).withoutComments
    simp only [Except.map, ofExcept_ok, pure_bind, ← marks_go [] toks]
    exact code.selectors_eq

/-! ### Writing files -/

/-- From the comments in front of a declaration to its end. -/
def DeclSpan.fullSpan (d : DeclSpan) : Span := ⟨d.leadingStart.getD d.span.start, d.span.stop⟩

/-- The whole of a file, its declarations cut out of the source. -/
def draftOf (src : Text) (file : Outline) : Checked ε Draft := do
  let decls ← file.decls.mapM fun d => slice src d.fullSpan.start d.fullSpan.stop
  return ⟨file.header, true, file.package.name, file.imports.flatMap (·.specs), decls⟩

/-- The imports other than those of C. -/
def importBlock (classifier : Classifier) (specs : List ImportSpec) : Checked ε (Option Text) :=
  if specs.length = 1 then do return some (Draft.singleImport (← item specs 0))
  else pure (Draft.importBlock classifier specs)

/-- The parts of the text in order, with the given imports. -/
def sectionsAround (draft : Draft) (block : Option Text) : List Text :=
  let constraints := draft.header.buildConstraints
  draft.header.comments
    ++ (if constraints.isEmpty then [] else [Text.joinWith ['\n'] constraints])
    ++ [draft.packageClause]
    ++ (draft.imports.partition ImportSpec.isCgo).1.map Draft.singleImport
    ++ block.toList
    ++ draft.decls.map Text.trimEnd

def render (classifier : Classifier) (draft : Draft) : Checked ε Text := do
  let block ← importBlock classifier (draft.imports.partition ImportSpec.isCgo).2
  return Text.joinWith ['\n', '\n'] (sectionsAround draft block) ++ ['\n']

/-- A file parsed and written out again. -/
def rendered (classifier : Classifier) (name src : Text) : Checked ParseError Text := do
  let file ← parse name src
  render classifier (← draftOf src file)

theorem importBlock_eq (classifier : Classifier) (specs : List ImportSpec) :
    (importBlock classifier specs : Checked ε _) = pure (Draft.importBlock classifier specs) := by
  rcases specs with _ | ⟨spec, _ | ⟨second, specs⟩⟩ <;> rfl

theorem render_eq (classifier : Classifier) (draft : Draft) :
    (render classifier draft : Checked ε _) = pure (draft.render classifier) := by
  rw [render, importBlock_eq, pure_bind]
  rfl

/-- Each declaration is cut out of the source as it is spelled. -/
theorem slice_decl {src : Text} {file : SourceFile} (parsed : SourceFile.ofSource src = .ok file)
    {d : Decl} (mem : d ∈ file.decls) :
    (slice src (DeclSpan.of d).fullSpan.start (DeclSpan.of d).fullSpan.stop : Checked ε Text) =
      pure d.text := by
  obtain ⟨front, rest, whole⟩ := SourceFile.decl_within parsed mem
  obtain ⟨t, run, tokens⟩ : ∃ t run, d.tokens = t :: run :=
    List.exists_cons_of_ne_nil (by simp [Decl.tokens])
  have placed := Reading.of_tokenize (SourceFile.tokens_of_parsed parsed)
  have cut : file.tokens = front ++ (t :: run ++ rest) := by rw [← whole, tokens, List.append_assoc]
  have sliced := @Reading.Of.slice_run ε _ _ _ front rest run t placed cut
  have span : (DeclSpan.of d).fullSpan = ⟨t.start, ((t :: run).getLastD t).stop⟩ := by
    refine d.fullSpan_eq.trans ?_
    rw [tokens, Token.spanOf, List.getLastD_cons]
  rw [span, Decl.text, tokens]
  exact sliced

theorem slice_decls {src : Text} {file : SourceFile} (parsed : SourceFile.ofSource src = .ok file)
    {ds : List Decl} (known : ∀ d ∈ ds, d ∈ file.decls) :
    ((ds.map DeclSpan.of).mapM fun d =>
      slice src d.fullSpan.start d.fullSpan.stop : Checked ε (List Text)) =
      pure (ds.map Decl.text) := by
  induction ds with
  | nil => rfl
  | cons d ds ih =>
    obtain ⟨first, others⟩ := List.forall_mem_cons.1 known
    rw [List.map_cons, List.mapM_cons, slice_decl parsed first, pure_bind, ih others, pure_bind]
    rfl

theorem draftOf_eq {src : Text} {file : SourceFile} (parsed : SourceFile.ofSource src = .ok file) :
    (draftOf src (Outline.of file) : Checked ε Draft) = pure (Draft.ofSourceFile file) := by
  have texts := @slice_decls ε src file parsed file.decls fun d mem => mem
  rw [draftOf]
  exact congrArg (· >>= _) texts

theorem rendered_eq (classifier : Classifier) (name src : Text) :
    rendered classifier name src = ofExcept ((SourceFile.parse name src).map fun file =>
      (Draft.ofSourceFile file).render classifier) := by
  rw [rendered, parse_eq]
  cases parsed : SourceFile.parse name src with
  | error e => rfl
  | ok file =>
    simp only [Except.map, ofExcept_ok, pure_bind]
    rw [draftOf_eq (SourceFile.parse_eq_ok_iff.1 parsed), pure_bind, render_eq]

/-! ### Edits -/

/-- Applies edits in order of their start; `out` is what comes of the text in front of the
cursor. -/
def applyFrom (src : Text) (cursor : Nat) (out : Text) : List Edit → Checked EditError Text
  | [] => do return out ++ (← slice src cursor src.byteLength)
  | edit :: edits =>
    if !Edit.fits src edit.span then throw (.outOfBounds edit.span src.byteLength)
    else if edit.span.start < cursor then throw (.overlapping edit.span.start)
    else do
      let kept ← slice src cursor edit.span.start
      applyFrom src edit.span.stop (out ++ kept ++ edit.replacement) edits

def applyAll (src : Text) (edits : List Edit) : Checked EditError Text :=
  applyFrom src 0 [] (edits.mergeSort fun a b => a.span.start ≤ b.span.start)

/-- The shaded text of a source; none when there is nothing to move. -/
def shadeSource (shader : Shader) (name src : Text) : Checked ShadeError (Option Shaded) := do
  let file ← ExceptT.adapt ShadeError.parse (parse name src)
  let edits := ((file.imports.flatMap (·.specs)).filter shader.moves).map shader.edit
  if edits.isEmpty then return none
  else
    let text ← ExceptT.adapt ShadeError.edit (applyAll src edits)
    return some ⟨text, edits.length⟩

theorem applyFrom_eq {src before rest : Text} (whole : src = before ++ rest) (out : Text)
    (edits : List Edit) :
    applyFrom src before.byteLength out edits =
      ofExcept ((Edit.applyFrom src before.byteLength rest edits).map (out ++ ·)) := by
  induction edits generalizing before rest out with
  | nil =>
    have last : src.slice? ⟨before.byteLength, src.byteLength⟩ = some rest :=
      Text.slice?_eq_some_iff.2 ⟨before, [], by simp [whole], by simp [whole]⟩
    rw [applyFrom, slice_of_slice? last]
    rfl
  | cons edit edits ih =>
    rw [applyFrom]
    by_cases fits : Edit.fits src edit.span = true
    · rw [fits, if_neg (by simp)]
      by_cases early : edit.span.start < before.byteLength
      · rw [if_pos early, Edit.applyFrom, fits, if_neg (by simp), if_pos early]
        rfl
      · obtain ⟨kept, old, after, rfl, span⟩ :=
          (Edit.fits_iff.1 fits).exists_parts whole (Nat.le_of_not_lt early)
        have inside : src.slice? ⟨before.byteLength, edit.span.start⟩ = some kept :=
          Text.slice?_eq_some_iff.2 ⟨before, old ++ after, whole, by simp [span]⟩
        have behind := @ih (before ++ (kept ++ old)) after (by simp [whole])
          (out ++ kept ++ edit.replacement)
        have stop : edit.span.stop = (before ++ (kept ++ old)).byteLength := by rw [span]
        rw [if_neg early, slice_of_slice? inside, pure_bind, stop, behind,
          Edit.applyFrom_cons whole (by rw [span]; simp [Nat.add_assoc]), stop]
        cases Edit.applyFrom src (before ++ (kept ++ old)).byteLength after edits with
        | error e => rfl
        | ok text => simp [Except.map]
    · have misfit : Edit.fits src edit.span = false := by simpa using fits
      rw [misfit, if_pos (by simp), Edit.applyFrom, misfit]
      rfl

theorem applyAll_eq (src : Text) (edits : List Edit) :
    applyAll src edits = ofExcept (Edit.applyAll src edits) := by
  have applied := @applyFrom_eq src [] src rfl []
    (edits.mergeSort fun a b => a.span.start ≤ b.span.start)
  have same : ∀ result : Except EditError Text, result.map ([] ++ ·) = result := by
    intro result
    cases result <;> rfl
  rw [same] at applied
  exact applied

theorem adapt_ofExcept {ε' α : Type} (f : ε → ε') (result : Except ε α) :
    (ExceptT.adapt f (ofExcept result) : Checked ε' α) = ofExcept (result.mapError f) := by
  cases result <;> rfl

theorem shadeSource_eq (shader : Shader) (name src : Text) :
    shadeSource shader name src = ofExcept (shader.shadeSource name src) := by
  rw [shadeSource, parse_eq, adapt_ofExcept, Shader.shadeSource]
  cases SourceFile.parse name src with
  | error e => rfl
  | ok file =>
    simp only [Except.map, Except.mapError, ofExcept_ok, pure_bind]
    have specs : (Outline.of file).imports.flatMap (·.specs) = file.importSpecs := rfl
    rw [specs]
    cases (file.importSpecs.filter shader.moves).map shader.edit with
    | nil => rfl
    | cons edit edits =>
      dsimp only
      rw [applyAll_eq, adapt_ofExcept]
      cases Edit.applyAll src (edit :: edits) <;> rfl

/-! ### The whole analysis -/

/-- The analysis comes to its end on every text. -/
theorem analysis_never_stops (classifier : Classifier) (shader : Shader) (name src : Text) :
    Lexer.tokenize src = ofExcept ((Token.tokenize src).map (List.map Mark.of)) ∧
    packageName name src = ofExcept (SourceFile.parsePackageName name src) ∧
    parse name src = ofExcept ((SourceFile.parse name src).map Outline.of) ∧
    usedNames src = ofExcept ((Token.tokenize src).map fun toks =>
      packageSelectors (Token.withoutComments toks)) ∧
    rendered classifier name src = ofExcept ((SourceFile.parse name src).map fun file =>
      (Draft.ofSourceFile file).render classifier) ∧
    shadeSource shader name src = ofExcept (shader.shadeSource name src) :=
  ⟨Lexer.tokenize_eq src, packageName_eq name src, parse_eq name src, usedNames_eq src,
    rendered_eq classifier name src, shadeSource_eq shader name src⟩

end GoSplit.Checked
