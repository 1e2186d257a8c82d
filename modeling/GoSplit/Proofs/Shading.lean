import GoSplit.Proofs.Edit
import GoSplit.Proofs.ImportPath
import GoSplit.Proofs.SourceFile.Twin
import GoSplit.Shading

/-!
Shading moves the external imports of a source and nothing else. The shaded text has the
tokens of the source with other literals among them, so it parses to the same file with
those paths moved; none of them is external any more, and shading it again changes nothing.
-/

namespace GoSplit

open List (Forall₂)
open Token (Chained Fits Plain Requoted Same place written)

/-! ### Paths in the private namespace -/

namespace ImportPath

theorem fits_join {space path : Text} (ends : space.getLast? ≠ some '/') (plain : Plain space)
    (fits : Fits path) : Fits (join space path) := by
  have slash : Plain (space ++ ['/']) := by simpa [Plain] using plain
  have whole := fits.dropSlashes.append slash
  rw [List.append_assoc, List.singleton_append] at whole
  rwa [join_eq ends]

end ImportPath

namespace Shader

open ImportSpec (Twins)

/-! ### The literals that change -/

theorem moves_congr (shader : Shader) {spec spec' : ImportSpec} (same : spec.path = spec'.path) :
    shader.moves spec = shader.moves spec' := by
  rw [moves, moves, same]

/-- The edit of a literal. -/
def tokenEdit (shader : Shader) (t : Token) : Edit :=
  ⟨t.span, ImportPath.quote (ImportPath.join shader.space t.text.tail.dropLast)⟩

/-- A token of the shaded text, where the literals at some spans are moved. -/
def requote (shader : Shader) (spans : List Span) (t : Token) : Token :=
  if t.span ∈ spans then
    ⟨.string, t.gap, ImportPath.quote (ImportPath.join shader.space t.text.tail.dropLast), t.start⟩
  else t

theorem requote_gap (shader : Shader) (spans : List Span) (t : Token) :
    (shader.requote spans t).gap = t.gap := by
  unfold requote
  split <;> rfl

/-- The edits are those of some literals, in the order of the source. -/
theorem exists_chosen (shader : Shader) {r : Token → Token → Prop} {literals : List Token}
    {specs' specs : List ImportSpec} (twins : Twins r literals specs' specs) :
    ∃ chosen : List Token, chosen.Sublist literals ∧
      (specs.filter shader.moves).map shader.edit = chosen.map shader.tokenEdit ∧
      (specs.filter shader.moves).map (·.literal) = chosen.map Token.span := by
  induction twins with
  | nil => exact ⟨[], List.Sublist.refl _, rfl, rfl⟩
  | @cons t' t spec' spec literals specs' specs _ twin _ ih =>
    obtain ⟨chosen, sub, edits, spans⟩ := ih
    by_cases moved : shader.moves spec = true
    · refine ⟨t :: chosen, sub.cons_cons t, ?_, ?_⟩
      · rw [List.filter_cons_of_pos moved, List.map_cons, List.map_cons, edits, edit, tokenEdit,
          twin.literal, twin.path]
      · rw [List.filter_cons_of_pos moved, List.map_cons, List.map_cons, spans, twin.literal]
    · refine ⟨chosen, sub.cons t, ?_, ?_⟩
      · rw [List.filter_cons_of_neg moved, edits]
      · rw [List.filter_cons_of_neg moved, spans]

/-- Each entry has its path from a literal of the source. -/
theorem exists_literal {r : Token → Token → Prop} {literals : List Token}
    {specs' specs : List ImportSpec} (twins : Twins r literals specs' specs) {spec : ImportSpec}
    (mem : spec ∈ specs) :
    ∃ t ∈ literals, spec.literal = t.span ∧ spec.path = t.text.tail.dropLast := by
  induction twins with
  | nil => simp at mem
  | @cons t' t spec' spec₀ literals specs' specs _ twin _ ih =>
    rcases List.mem_cons.1 mem with rfl | mem
    · exact ⟨t, List.mem_cons_self .., twin.literal, twin.path⟩
    · obtain ⟨u, memU, rest⟩ := ih mem
      exact ⟨u, List.mem_cons_of_mem _ memU, rest⟩

theorem exists_spec {r : Token → Token → Prop} {literals : List Token}
    {specs' specs : List ImportSpec} (twins : Twins r literals specs' specs) {t : Token}
    (mem : t ∈ literals) :
    ∃ spec ∈ specs, spec.literal = t.span ∧ spec.path = t.text.tail.dropLast ∧
      t.isString = true ∧ t.text.tail.dropLast ≠ [] := by
  induction twins with
  | nil => simp at mem
  | @cons t' t₀ spec' spec literals specs' specs _ twin _ ih =>
    rcases List.mem_cons.1 mem with rfl | mem
    · exact ⟨spec, List.mem_cons_self .., twin.literal, twin.path, twin.string, twin.nonempty⟩
    · obtain ⟨spec, memSpec, rest⟩ := ih mem
      exact ⟨spec, List.mem_cons_of_mem _ memSpec, rest⟩

/-- A namespace that paths can be moved to. -/
structure Proper (shader : Shader) : Prop where
  nonempty : shader.space ≠ []
  ends : shader.space.getLast? ≠ some '/'
  plain : Plain shader.space

theorem Proper.requoted {shader : Shader} (proper : shader.Proper) {ts chosen : List Token}
    (ordered : ts.Pairwise fun t u => t.start < u.start) (sub : chosen.Sublist ts)
    (strings : ∀ t ∈ chosen, t.isString = true ∧ t.text.tail.dropLast ≠ [] ∧
      Fits t.text.tail.dropLast) :
    ∀ t ∈ ts, Requoted t (shader.requote (chosen.map Token.span) t) := by
  intro t mem
  refine ⟨(shader.requote_gap _ t).symm, ?_⟩
  unfold requote
  split
  · next here =>
    obtain ⟨u, memU, span⟩ := List.mem_map.1 here
    obtain rfl := Token.eq_of_span_eq ordered mem (sub.subset memU) span.symm
    obtain ⟨string, some, fits⟩ := strings t memU
    have some' : ImportPath.join shader.space t.text.tail.dropLast ≠ [] := by
      rw [ImportPath.join_eq proper.ends]
      simp
    exact .inr ⟨string, some, rfl, _, some',
      ImportPath.fits_join proper.ends proper.plain fits, rfl⟩
  · exact .inl ⟨rfl, rfl⟩

/-- What a literal of a source holds can be put between double quotes. -/
theorem fits_of_literal {ts : List Token} {after : Text} (chained : Chained ts after) {t : Token}
    (mem : t ∈ ts) (string : t.isString = true)
    (plain : t.kind = .rawString → Plain t.text.tail.dropLast) : Fits t.text.tail.dropLast := by
  obtain ⟨rest, reads⟩ := chained.reads_of_mem mem
  rcases Token.isString_iff.1 string with kind | kind
  · rw [kind] at reads
    exact reads.fits
  · exact (plain kind).fits

/-! ### The shaded file -/

/-- The other file is the first with its external imports moved. -/
structure Shades (shader : Shader) (file shaded : SourceFile) : Prop where
  header : shaded.header = file.header
  package : shaded.package.name = file.package.name
  decls : Forall₂ (fun d' d : Decl => d'.heading = d.heading) shaded.decls file.decls
  specs : Forall₂ (fun spec' spec : ImportSpec => spec'.localName = spec.localName ∧
      spec'.doc = spec.doc ∧ spec'.comment = spec.comment ∧
      spec'.path = if shader.moves spec then
        shader.space ++ '/' :: spec.path.dropWhile (· == '/') else spec.path)
    shaded.importSpecs file.importSpecs

/-- A literal of an entry is moved exactly when the entry is. -/
theorem inner_requote {shader : Shader} {ts literals : List Token}
    (ordered : ts.Pairwise fun t u => t.start < u.start) (sub : literals.Sublist ts)
    {r : Token → Token → Prop} {specs' specs : List ImportSpec}
    (twins : Twins r literals specs' specs) {spec : ImportSpec} (memSpec : spec ∈ specs)
    {t : Token} (mem : t ∈ ts) (literal : spec.literal = t.span)
    (path : spec.path = t.text.tail.dropLast) :
    (shader.requote ((specs.filter shader.moves).map (·.literal)) t).text.tail.dropLast =
      if shader.moves spec then ImportPath.join shader.space spec.path else spec.path := by
  have same : t.span ∈ (specs.filter shader.moves).map (·.literal) ↔ shader.moves spec = true := by
    constructor
    · intro here
      obtain ⟨other, memOther, span⟩ := List.mem_map.1 here
      rw [List.mem_filter] at memOther
      obtain ⟨u, memU, literal', path'⟩ := exists_literal twins memOther.1
      obtain rfl := Token.eq_of_span_eq ordered mem (sub.subset memU) (by rw [← span, literal'])
      rw [shader.moves_congr (path.trans path'.symm)]
      exact memOther.2
    · intro moved
      exact List.mem_map.2 ⟨spec, List.mem_filter.2 ⟨memSpec, moved⟩, literal⟩
  unfold requote
  by_cases moved : shader.moves spec = true
  · rw [if_pos (same.2 moved), if_pos moved, path]
    exact Token.dropLast_tail_quote _
  · rw [if_neg (mt same.1 moved), if_neg moved, path]

theorem Shades.not_moves {shader : Shader} (proper : shader.Proper) {file shaded : SourceFile}
    (h : shader.Shades file shaded) : shaded.importSpecs.filter shader.moves = [] := by
  rw [List.filter_eq_nil_iff]
  have paths := h.specs
  generalize shaded.importSpecs = specs' at paths ⊢
  generalize file.importSpecs = specs at paths
  induction paths with
  | nil => simp
  | @cons spec' spec _ _ here _ ih =>
    refine List.forall_mem_cons.2 ⟨?_, ih⟩
    obtain ⟨-, -, -, path⟩ := here
    by_cases moved : shader.moves spec = true
    · have under := ImportPath.isUnder_join proper.nonempty proper.ends spec.path
      rw [if_pos moved, ← ImportPath.join_eq proper.ends] at path
      simp [moves, path, Classifier.classify, under]
    · rw [if_neg moved] at path
      rwa [shader.moves_congr path]

/-- Moving the external imports of a source. -/
theorem exists_shaded {shader : Shader} (proper : shader.Proper) {src : Text} {file : SourceFile}
    (parsed : SourceFile.ofSource src = .ok file) (plain : file.PlainImports) :
    ∃ text shaded, Edit.Replaces 0 src
      ((file.importSpecs.filter shader.moves).map shader.edit) text ∧
      SourceFile.ofSource text = .ok shaded ∧ shader.Shades file shaded := by
  obtain ⟨ts, tokens, found⟩ := SourceFile.ofSource_eq_ok_iff.1 parsed
  obtain ⟨tail, rfl, chained, blank, placed⟩ := Token.tokenize_eq_ok_iff.1 tokens
  have ordered := Token.pairwise_start chained placed
  have all : file.tokens = ts := by
    obtain ⟨package, rest, items, trailing, -, -, rfl⟩ := SourceFile.ofTokens_eq_ok_iff.1 found
    rfl
  -- The entries and the literals they come from.
  obtain ⟨again, literals, -, -, -, -, sub, twins⟩ :=
    SourceFile.ofTokens_twin (r := Eq) (fun t' t eq => eq ▸ ⟨rfl, .inl ⟨rfl, rfl⟩⟩) 0 found
      (List.forall₂_eq_eq_eq ▸ rfl)
  obtain ⟨chosen, subChosen, edits, spans⟩ := shader.exists_chosen twins
  have subAll := subChosen.trans sub
  have strings : ∀ t ∈ chosen, t.isString = true ∧ t.text.tail.dropLast ≠ [] ∧
      Fits t.text.tail.dropLast := by
    intro t mem
    obtain ⟨spec, memSpec, literal, path, string, some⟩ := exists_spec twins (subChosen.subset mem)
    refine ⟨string, some, fits_of_literal chained (subAll.subset mem) string fun raw => ?_⟩
    rw [← path]
    exact plain spec memSpec t (all ▸ subAll.subset mem) literal.symm raw
  -- The tokens of the shaded text.
  let f := shader.requote (chosen.map Token.span)
  have requoted : ∀ t ∈ ts, Requoted t (f t) := proper.requoted ordered subAll strings
  have chained' : Chained (ts.map f) tail := by
    refine chained.requoted ?_
    rw [List.forall₂_map_right_iff, List.forall₂_same]
    exact requoted
  have tokens' : Token.tokenize (written (ts.map f) ++ tail) = .ok (place 0 (ts.map f)) :=
    Token.Covers.tokenize ⟨tail, rfl, chained', blank⟩
  have like : Forall₂ (fun t' t => t ∈ ts ∧ Same t' (f t)) (place 0 (ts.map f)) ts := by
    have same := Token.forall₂_place 0 (ts.map f)
    rw [List.forall₂_map_right_iff] at same
    exact Token.forall₂_and_mem same
  obtain ⟨shaded, literals', found', header, package, decls, -, twins'⟩ :=
    SourceFile.ofTokens_twin (fun t' t rel => (requoted t rel.1).twin rel.2)
      (written (ts.map f) ++ tail).byteLength found like
  refine ⟨written (ts.map f) ++ tail, shaded, ?_,
    SourceFile.ofSource_eq_ok_iff.2 ⟨_, tokens', found'⟩, header, package, decls, ?_⟩
  · rw [edits]
    have distinct : ts.Nodup := ordered.imp fun lt eq => by simp [eq] at lt
    refine Edit.replaces_tokens subAll distinct (fun t => rfl) (shader.requote_gap _) ?_ ?_
      0 [] tail
      placed
    · intro t mem
      simp [requote, tokenEdit, List.mem_map_of_mem mem]
    · intro t mem out
      have apart : t.span ∉ chosen.map Token.span := by
        intro here
        obtain ⟨u, memU, span⟩ := List.mem_map.1 here
        obtain rfl := Token.eq_of_span_eq ordered mem (subAll.subset memU) span.symm
        exact out memU
      simp [requote, apart]
  · refine (Token.forall₂_and_mem twins'.forall₂).imp ?_
    rintro spec' spec ⟨memSpec, t', t, ⟨mem, same⟩, twin⟩
    refine ⟨twin.localName, twin.doc, twin.comment, ?_⟩
    rw [twin.path', same.text, ← ImportPath.join_eq proper.ends]
    simp only [f, ← spans]
    exact inner_requote ordered sub twins memSpec mem twin.literal twin.path

/-- Shading fails where parsing fails, does nothing where no import is external as it is
written, and otherwise moves exactly those imports; then there is nothing left to move. -/
theorem shadeSource_moves_external {shader : Shader} (proper : shader.Proper) (name src : Text)
    (plain : ∀ file, SourceFile.parse name src = .ok file → file.PlainImports) :
    match SourceFile.parse name src with
    | .error e => shader.shadeSource name src = .error (.parse e)
    | .ok file =>
      let moved := file.importSpecs.filter fun spec =>
        shader.classifier.classify spec.path shader.space == .externalCanonical
      (shader.shadeSource name src = .ok none ↔ moved = []) ∧
      (moved ≠ [] → ∃ text shaded,
        shader.shadeSource name src = .ok (some ⟨text, moved.length⟩) ∧
        Edit.Replaces 0 src (moved.map fun spec =>
          ⟨spec.literal, ImportPath.quote (ImportPath.join shader.space spec.path)⟩) text ∧
        SourceFile.parse name text = .ok shaded ∧ shader.Shades file shaded ∧
        shader.shadeSource name text = .ok none) := by
  cases parsed : SourceFile.parse name src with
  | error e => simp [shadeSource, parsed]
  | ok file =>
    dsimp only
    generalize moving : (file.importSpecs.filter fun spec =>
      shader.classifier.classify spec.path shader.space == .externalCanonical) = moved
    have chosen : file.importSpecs.filter shader.moves = moved := moving
    by_cases nothing : moved = []
    · refine ⟨iff_of_true ?_ nothing, fun some => absurd nothing some⟩
      simp [shadeSource, parsed, chosen, nothing]
    · obtain ⟨text, shaded, replaces, parsed', shades⟩ :=
        exists_shaded proper (SourceFile.parse_eq_ok_iff.1 parsed) (plain file parsed)
      have applied := Edit.applyAll_of_replaces replaces
      rw [chosen] at replaces applied
      have result : shader.shadeSource name src = .ok (some ⟨text, moved.length⟩) := by
        simp only [shadeSource, parsed, chosen]
        split
        · next none_left => exact absurd (List.map_eq_nil_iff.1 none_left) nothing
        · simp only [applied, List.length_map]
      have parsed'' : SourceFile.parse name text = .ok shaded :=
        SourceFile.parse_eq_ok_iff.2 parsed'
      refine ⟨iff_of_false (by simp [result]) nothing, fun _ => ?_⟩
      refine ⟨text, shaded, result, replaces, parsed'', shades, ?_⟩
      simp [shadeSource, parsed'', shades.not_moves proper]

/-- Moves hosted packages below a namespace of its own. -/
def sample : Shader := ⟨.dotted, "own/third".toList⟩

/-- A hosted package between back quotes, with a local name, and one of the library. -/
def sampleSource : Text := "package p\n\nimport (\n\ty \x60a.b/c\x60 // as y\n\t\"fmt\"\n)\n".toList

theorem shadeSource_moves_sample :
    ∃ file text shaded, SourceFile.parse [] sampleSource = .ok file ∧
      sample.shadeSource [] sampleSource = .ok (some ⟨text, 1⟩) ∧
      SourceFile.parse [] text = .ok shaded ∧ sample.Shades file shaded ∧
      sample.shadeSource [] text = .ok none := by
  have proper : sample.Proper := ⟨by decide, by decide, by decide⟩
  have check : (SourceFile.parse [] sampleSource).toOption.any (fun file =>
      decide file.PlainImports && decide ((file.importSpecs.filter fun spec =>
        sample.classifier.classify spec.path sample.space == .externalCanonical).length = 1)) =
          true := by
    unfold sampleSource
    rw [String.toList_ofList]
    decide +kernel
  have shaded := shadeSource_moves_external proper [] sampleSource
  obtain ⟨file, parsed, passed⟩ := SourceFile.exists_of_toOption_any check
  simp only [Bool.and_eq_true, decide_eq_true_eq] at passed
  obtain ⟨plain, one⟩ := passed
  simp only [parsed] at shaded
  obtain ⟨-, moves⟩ := shaded fun file' eq => by
    cases eq
    exact plain
  obtain ⟨text, file', result, -, parsed', shades, again⟩ := moves fun none_left => by
    simp [none_left] at one
  rw [one] at result
  exact ⟨file, text, file', parsed, result, parsed', shades, again⟩

end Shader

end GoSplit
