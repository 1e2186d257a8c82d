import GoSplit.Proofs.Bucket.Outcome
import GoSplit.Proofs.Draft.Remarks

/-!
Build constraints in the files of the buckets. A constraint reaches every file that is written
unless it stands in the package comment, which only the first file carries: there it is lost for
all others, whether or not it takes part in the build as a constraint.
-/

namespace GoSplit

namespace Bucket

variable {src : Text} {file drafted kept : SourceFile} {bucket : Bucket} {documented : Bool}
  {c c' : Classifier}

/-- A comment goes through both renderings of a bucket's file. -/
theorem exists_headComment (parsed : SourceFile.ofSource src = .ok file)
    (parsed' : SourceFile.ofSource ((bucket.draft documented file).render c) = .ok drafted)
    (parsed'' : SourceFile.ofSource (drafted.pruned.render c') = .ok kept) {w : Text}
    (remarks : file.header.Remarks documented w) :
    ∃ u ∈ kept.headComments, Text.Trims w u.text := by
  obtain ⟨t, mem, trims⟩ :=
    @SourceFile.exists_headComment _ (bucket.draft documented file) c w
      (SourceFile.quiet_header parsed) remarks parsed'
  have again := SourceFile.remarks_header parsed' mem (.inr rfl)
  exact @SourceFile.exists_headComment _ drafted.pruned c' w (SourceFile.quiet_header parsed')
    (again.trims trims) parsed''

/-- A build constraint in front of the package clause is there in the bucket's file as well. -/
theorem exists_constraint (parsed : SourceFile.ofSource src = .ok file)
    (parsed' : SourceFile.ofSource ((bucket.draft documented file).render c) = .ok drafted)
    (parsed'' : SourceFile.ofSource (drafted.pruned.render c') = .ok kept) {t : Token}
    (mem : t ∈ file.headComments) (reached : ¬ file.InPackageDoc t ∨ documented = true) :
    ∃ u ∈ kept.headComments, Text.trimEnd u.text = Text.trimEnd t.text ∧
      (file.AmongConstraints t → u.text = Text.trimEnd t.text) := by
  by_cases among : file.AmongConstraints t
  · have remarks := SourceFile.remarks_of_amongConstraints parsed among documented
    obtain ⟨u, memU, trims⟩ := exists_headComment parsed parsed' parsed'' remarks
    have same := trims.eq_of_trimmed (Text.trimEnd_trimEnd _)
    exact ⟨u, memU, by rw [same, Text.trimEnd_trimEnd], fun _ => same⟩
  · have remarks := SourceFile.remarks_header parsed mem reached
    obtain ⟨u, memU, trims⟩ := exists_headComment parsed parsed' parsed'' remarks
    exact ⟨u, memU, trims.trimEnd_eq, fun isAmong => absurd isAmong among⟩

end Bucket

namespace BucketWriter

variable {writer : BucketWriter} {file : SourceFile} {site after : Site}

/-- However a run ends, the file of a bucket with declarations is the one made for it, or the
file that was there before. -/
theorem writeAll_outcome (steady : writer.pruner.Steady) (log : writer.LogApart site.tree)
    (inOrder : site.tree.InOrder) {result : Except SplitError (List WrittenBucket)}
    (ran : (writer.writeAll file).on site = (result, after)) {bucket : Bucket}
    (mem : bucket ∈ Bucket.nonEmpty file) {loc : Location}
    (landed : site.tree.landing (writer.path bucket) = .ok loc) :
    (∃ text, writer.Makes file ((Bucket.nonEmpty file).head? == some bucket) bucket text ∧
      after.tree.find? loc = some (.file (.ofText text))) ∨
      (∀ written, result ≠ .ok written) ∧ ∀ content,
        after.tree.find? loc = some (.file content) →
        site.tree.find? loc = some (.file content) := by
  -- Directories are made first, and hold no file.
  obtain ⟨made, r, makes⟩ : ∃ made r, (Tree.makeDirs writer.output).on site.tree = (r, made) :=
    ⟨_, _, rfl⟩
  have grown := Tree.makeDirs_grown makes
  have old : ∀ content, made.find? loc = some (.file content) →
      site.tree.find? loc = some (.file content) := by
    intro content found
    rcases grown.find loc with same | ⟨-, -, directory⟩
    · rwa [same] at found
    · rw [directory] at found
      cases found
  rcases SiteM.on_bind_cases ran with ⟨e, failed, rfl⟩ | ⟨_, dirs, making, ran⟩
  · obtain ⟨rfl⟩ : after = { site with tree := made } := by
      have same := congrArg Prod.snd failed
      rw [Site.makeDirs, SiteM.on_files, FileM.on_mapError, makes] at same
      exact same.symm
    exact .inr ⟨by simp, old⟩
  obtain ⟨made', makes', rfl⟩ := Site.on_files_eq_ok_iff.1 making
  cases makes'.symm.trans makes
  have stays : site.tree.Stays made := ⟨grown.base, grown.mounts, grown.refuses, grown.opened⟩
  have log' := log.stays stays
  have distinct : (Bucket.nonEmpty file).Nodup := List.filter_sublist.nodup (by decide)
  have landed' : made.landing (writer.path bucket) = .ok loc := by
    rw [Tree.landing_congr stays.base, landed]
  have written : ∀ {r : Except SplitError (List WrittenBucket)} {wrote : Site},
      (writer.writeEach file true (Bucket.nonEmpty file)).on { site with tree := made } =
        (r, wrote) →
      wrote.tree.InOrder ∧ writer.LogApart wrote.tree ∧ wrote.tree.base = site.tree.base ∧
        ((∃ text, writer.Makes file ((Bucket.nonEmpty file).head? == some bucket) bucket text ∧
          wrote.tree.find? loc = some (.file (.ofText text))) ∨
        (∀ written, r ≠ .ok written) ∧ wrote.tree.find? loc = made.find? loc) := by
    intro r wrote ran
    obtain ⟨inOrder', changed, stored⟩ :=
      @writeEach_outcome writer file { site with tree := made } wrote steady _ distinct true _ log'
        (inOrder.makeDirs makes) ran
    refine ⟨inOrder', log'.stays changed.stays, changed.base.trans grown.base, ?_⟩
    rcases stored bucket mem with ⟨text, loc', landed'', makes, found⟩ | ⟨none, same⟩
    · cases landed'.symm.trans landed''
      exact .inl ⟨text, by simpa using makes, found⟩
    · exact .inr ⟨none, same loc landed'⟩
  rcases SiteM.on_bind_cases ran with ⟨e, failed, rfl⟩ | ⟨ws, wrote, writing, ran⟩
  · obtain ⟨-, -, -, fresh | ⟨-, same⟩⟩ := written failed
    · exact .inl fresh
    · exact .inr ⟨by simp, fun content found => old content (same ▸ found)⟩
  obtain ⟨inOrder', logApart, base, fresh | ⟨none, -⟩⟩ := written writing
  · -- What goes afterwards are files of other buckets.
    obtain ⟨r, cleaned, cleaning, last⟩ : ∃ r cleaned,
        (writer.removeStale file Bucket.all).on wrote = (r, cleaned) ∧
        cleaned.tree = after.tree := by
      rcases SiteM.on_bind_cases ran with ⟨e, failed, -⟩ | ⟨_, cleaned, cleaning, ran⟩
      · exact ⟨_, _, failed, rfl⟩
      · cases ran
        exact ⟨_, _, cleaning, rfl⟩
    obtain ⟨-, changed⟩ := removeStale_outcome logApart inOrder' cleaning
    obtain ⟨text, makes, found⟩ := fresh
    refine .inl ⟨text, makes, ?_⟩
    have landed'' : wrote.tree.landing (writer.path bucket) = .ok loc := by
      rw [Tree.landing_congr base, landed]
    rw [← last, changed.same loc, found]
    rintro (isOpen | ⟨other, -, empty, landedOther⟩)
    · exact logApart bucket loc landed'' isOpen
    · have below : loc ≠ [] := by
        rintro rfl
        simp at found
      obtain rfl := eq_of_landing below landed'' landedOther
      simp [Bucket.nonEmpty, List.mem_filter, empty] at mem
  · exact absurd rfl (none ws)

/-- What stands above the package clause of a source, build constraints like any other comment,
stands above the package clause of every file that is written for it, unless it is part of the
package comment, which the first file has. Constraints on their own come without white space at
their ends. -/
theorem writeAll_carries_constraints {name src : Text}
    (parsed : SourceFile.parse name src = .ok file) {c : Classifier}
    (pruner : writer.pruner = Pruner.usage c) (inOrder : site.tree.InOrder)
    (log : writer.LogElsewhere site.tree) {result : Except SplitError (List WrittenBucket)}
    (ran : (writer.writeAll file).on site = (result, after)) {bucket : Bucket}
    (mem : bucket ∈ Bucket.nonEmpty file) {loc : Location}
    (landed : site.tree.landing (writer.path bucket) = .ok loc)
    (written : (∃ written, result = .ok written) ∨ ∃ content,
      after.tree.find? loc = some (.file content) ∧ site.tree.find? loc ≠ some (.file content)) :
    ∃ text kept, after.tree.find? loc = some (.file (.ofText text)) ∧
      SourceFile.parse (writer.fileName bucket) text = .ok kept ∧
      ∀ t ∈ file.tokens, t.start < file.package.span.start →
        (file.InPackageDoc t → (Bucket.nonEmpty file).head? = some bucket) →
        ∃ u ∈ kept.tokens, u.start < kept.package.span.start ∧ u.isComment = true ∧
          Text.trimEnd u.text = Text.trimEnd t.text ∧
          (file.AmongConstraints t → u.text = Text.trimEnd t.text) := by
  have steady : writer.pruner.Steady := pruner ▸ Pruner.steady_usage c
  obtain ⟨text, ⟨gives, kept, parsedKept⟩, found⟩ : ∃ text,
      writer.Makes file ((Bucket.nonEmpty file).head? == some bucket) bucket text ∧
        after.tree.find? loc = some (.file (.ofText text)) := by
    rcases writeAll_outcome steady (log.apart inOrder) inOrder ran mem landed with
      fresh | ⟨none, old⟩
    · exact fresh
    · rcases written with ⟨ws, ok⟩ | ⟨content, found, new⟩
      · exact absurd ok (none ws)
      · exact absurd (old content found) new
  rw [pruner] at gives
  obtain ⟨drafted, parsedDraft, rfl⟩ := Pruner.gives_usage gives
  rw [SourceFile.parse_eq_ok_iff] at parsed parsedDraft
  have parsedKept' := SourceFile.parse_eq_ok_iff.1 parsedKept
  refine ⟨_, kept, found, parsedKept, fun t memT early doc => ?_⟩
  have reached : ¬ file.InPackageDoc t ∨
      ((Bucket.nonEmpty file).head? == some bucket) = true := by
    by_cases inDoc : file.InPackageDoc t
    · exact .inr (by simpa using doc inDoc)
    · exact .inl inDoc
  obtain ⟨u, memU, same, exact'⟩ := Bucket.exists_constraint parsed parsedDraft parsedKept'
    ((SourceFile.mem_headComments_iff parsed).2 ⟨memT, early⟩) reached
  obtain ⟨memU', early'⟩ := (SourceFile.mem_headComments_iff parsedKept').1 memU
  exact ⟨u, memU', early', List.all_eq_true.1 List.all_takeWhile u memU, same, exact'⟩

/-- A constraint in the package comment is lost in a file that is not the first. -/
example :
    (SourceFile.parse [] ("//go:build linux\n// Package p.\npackage p\n\n" ++
        "type T int\n\nfunc F() \x7b\x7d\n").toList).toOption.any
    (fun file => file.headComments.any
      (fun t => Header.isBuildConstraint t.text && decide (file.InPackageDoc t)) &&
      decide (Bucket.nonEmpty file = [.types, .functions]) &&
      (SourceFile.parse [] ((Bucket.functions.draft false file).render .dotted)).toOption.any
        fun drafted => drafted.headComments.isEmpty) = true := by
  rw [String.toList_append, String.toList_ofList, String.toList_ofList]
  decide +kernel

/-- A constraint above a package comment, with declarations for two files. -/
def constrained : Text :=
  "//go:build linux \n\n// Package p.\npackage p\n\ntype T int\n\nfunc F() \x7b\x7d\n".toList

theorem writeAll_carries_sample : ∃ file written after text kept,
    SourceFile.parse [] constrained = .ok file ∧
      (sampleWriter.writeAll file).on (Site.start (Tree.empty ['/', 'w']) 0) =
        (.ok written, after) ∧
      after.tree.find? ["out".toList, "a_funcs.go".toList] = some (.file (.ofText text)) ∧
      SourceFile.parse "a_funcs.go".toList text = .ok kept ∧
      ∃ u ∈ kept.tokens, u.start < kept.package.span.start ∧ u.isComment = true ∧
        u.text = "//go:build linux".toList := by
  have check : (SourceFile.parse [] constrained).toOption.any (fun file =>
      decide (Bucket.functions ∈ Bucket.nonEmpty file) &&
        ((sampleWriter.writeAll file).on (Site.start (Tree.empty ['/', 'w']) 0)).1.isOk &&
        file.tokens.any fun t => decide (t.start < file.package.span.start) &&
          decide (¬ file.InPackageDoc t) && decide (file.AmongConstraints t) &&
          decide (t.text = "//go:build linux ".toList)) = true := by
    unfold constrained
    rw [String.toList_ofList]
    decide +kernel
  obtain ⟨file, parsed, passed⟩ := SourceFile.exists_of_toOption_any check
  simp only [Bool.and_eq_true, decide_eq_true_eq, List.any_eq_true] at passed
  obtain ⟨⟨mem, ok⟩, t, memT, ⟨⟨early, out⟩, among⟩, text⟩ := passed
  rcases ran : (sampleWriter.writeAll file).on (Site.start (Tree.empty ['/', 'w']) 0) with
    ⟨e | written, after⟩
  · rw [ran] at ok
    cases ok
  have inOrder : (Tree.empty ['/', 'w']).InOrder := ⟨by decide, fun _ isOpen => by cases isOpen⟩
  have landed : (Tree.empty ['/', 'w']).landing (sampleWriter.path .functions) =
      .ok ["out".toList, "a_funcs.go".toList] := by
    decide +kernel
  obtain ⟨text', kept, found, parsedKept, carried⟩ :=
    writeAll_carries_constraints parsed rfl inOrder (fun _ isOpen => by cases isOpen) ran mem
      landed (.inl ⟨written, rfl⟩)
  obtain ⟨u, memU, early', comment, -, trimmed⟩ :=
    carried t memT early fun inDoc => absurd inDoc out
  refine ⟨file, written, after, text', kept, parsed, ran, found, parsedKept, u, memU, early',
    comment, ?_⟩
  rw [trimmed among, text]
  decide +kernel

end BucketWriter

end GoSplit
