import GoSplit.Bucket.Writer
import GoSplit.Proofs.Draft.RoundTrip
import GoSplit.Proofs.Site
import GoSplit.Proofs.Tree.Directories

/-!
Splitting keeps every declaration. A bucket's file is rendered, read for its imports,
rendered again and checked; the declarations of the bucket come through all of this in
order and unaltered, and the files of the other buckets do not disturb it.
-/

namespace GoSplit

open List (Forall₂)

/-- Declares the same thing in the same words, up to white space at the end. -/
structure Decl.Same (d d' : Decl) : Prop where
  heading : d.heading = d'.heading
  text : Text.trimEnd d.text = Text.trimEnd d'.text

/-- Two renderings trim the end of a text no further than one. -/
theorem Decl.same_of_repeats {ds ds' ds'' : List Decl} (again : Forall₂ Draft.Repeats ds ds')
    (once : Forall₂ Draft.Repeats ds' ds'') : Forall₂ Decl.Same ds ds'' := by
  induction again generalizing ds'' with
  | nil =>
    cases once
    exact .nil
  | cons here _ ih =>
    cases once with
    | cons before rest =>
      refine .cons ⟨here.heading.trans before.heading, ?_⟩ (ih rest)
      rw [here.text, before.text, Text.trimEnd_trimEnd, Text.trimEnd_trimEnd]

theorem SourceFile.Printable.pruned {file : SourceFile} (h : file.Printable) :
    file.pruned.Printable file.decls :=
  ⟨h.header, h.package, fun spec mem => h.imports spec (List.mem_filter.1 mem).1, rfl, h.decls⟩

namespace Bucket

/-- The declarations of a bucket, in order. -/
def decls (bucket : Bucket) (file : SourceFile) : List Decl := (bucket.members file).map (·.2)

/-- The other file has the package of the first and exactly the declarations of the bucket. -/
structure Kept (bucket : Bucket) (file kept : SourceFile) : Prop where
  package : kept.package.name = file.package.name
  decls : Forall₂ Decl.Same kept.decls (bucket.decls file)

theorem decls_eq_filter (bucket : Bucket) (file : SourceFile) :
    bucket.decls file = file.decls.filter fun d => ofKind d.kind == bucket := by
  have dropIndex : ∀ (ds : List Decl) (n : Nat),
      (((ds.zipIdx n).map fun p => (p.2, p.1)).filter fun p => ofKind p.2.kind == bucket).map
        (·.2) = ds.filter fun d => ofKind d.kind == bucket := by
    intro ds
    induction ds with
    | nil => intro n; rfl
    | cons d ds ih =>
      intro n
      by_cases here : (ofKind d.kind == bucket) = true
      · simpa [here] using ih (n + 1)
      · simpa [here] using ih (n + 1)
  exact dropIndex file.decls 0

/-- Every item is in one bucket. -/
theorem perm_filter {α : Type} (bucketOf : α → Bucket) (items : List α) :
    (all.flatMap fun bucket => items.filter fun item => bucketOf item == bucket).Perm items := by
  simp only [all, List.flatMap_cons, List.flatMap_nil, List.append_nil]
  induction items with
  | nil => exact .refl _
  | cons item items ih =>
    have keep := List.Perm.cons item ih
    cases eq : bucketOf item with
    | types => simpa [eq] using keep
    | functions => simpa [eq] using List.perm_middle.trans keep
    | methods =>
      rw [← List.append_assoc] at keep
      simpa [eq, ← List.append_assoc] using List.perm_middle.trans keep

/-- Every declaration has its place in exactly one bucket. -/
theorem perm_members (file : SourceFile) :
    ((nonEmpty file).flatMap fun bucket => bucket.decls file).Perm file.decls := by
  have skip : ((nonEmpty file).flatMap fun bucket => bucket.decls file) =
      all.flatMap fun bucket => bucket.decls file := by
    unfold nonEmpty
    induction all with
    | nil => rfl
    | cons bucket rest ih =>
      by_cases empty : (bucket.members file).isEmpty = true
      · have none_left : bucket.decls file = [] := by simp [decls, List.isEmpty_iff.1 empty]
        simp [empty, ih, none_left]
      · simp [empty, ih]
  rw [skip]
  simp only [decls_eq_filter]
  exact perm_filter (fun d => ofKind d.kind) file.decls

theorem printable_draft {file : SourceFile} (h : file.Printable) (bucket : Bucket)
    (withPackageDoc : Bool) : (bucket.draft withPackageDoc file).Printable (bucket.decls file) := by
  refine ⟨h.header, h.package, h.imports, ?_, ?_⟩
  · simp [draft, decls, Function.comp_def]
  · rw [decls_eq_filter]
    exact h.decls.filter _

/-- The file of a bucket can be read, and again after unused imports are left out. -/
theorem exists_kept {file : SourceFile} (h : file.Printable) (bucket : Bucket)
    (withPackageDoc : Bool) (c c' : Classifier) :
    ∃ drafted kept,
      SourceFile.ofSource ((bucket.draft withPackageDoc file).render c) = .ok drafted ∧
        SourceFile.ofSource (drafted.pruned.render c') = .ok kept ∧
        (bucket.draft withPackageDoc file).Read (bucket.decls file) drafted ∧
        drafted.pruned.Read drafted.decls kept := by
  obtain ⟨drafted, parsed, read⟩ := (printable_draft h bucket withPackageDoc).exists_read c
  obtain ⟨kept, parsed', read'⟩ := read.printable.pruned.exists_read c'
  exact ⟨drafted, kept, parsed, parsed', read, read'⟩

theorem kept_of_read {file drafted kept : SourceFile} {bucket : Bucket} {withPackageDoc : Bool}
    (read : (bucket.draft withPackageDoc file).Read (bucket.decls file) drafted)
    (read' : drafted.pruned.Read drafted.decls kept) : bucket.Kept file kept :=
  ⟨read'.package.trans read.package, Decl.same_of_repeats read'.decls read.decls⟩

end Bucket

namespace BucketWriter

/-! ### The files -/

/-- How the name of a bucket's file ends. -/
def ending (bucket : Bucket) : Text := bucket.suffix ++ ".go".toList

theorem ending_injective {bucket bucket' : Bucket} (same : ending bucket = ending bucket') :
    bucket = bucket' := by
  revert same
  cases bucket <;> cases bucket' <;> decide

/-- The paths of the buckets differ only in their ends. -/
theorem exists_path_text (writer : BucketWriter) :
    ∃ before : Text, ∀ bucket, (writer.path bucket).text = before ++ ending bucket := by
  have text : ∀ bucket, (writer.path bucket).text =
      (writer.output.join (writer.stem ++ ending bucket)).text := by
    intro bucket
    rw [path, fileName, Bucket.fileName, List.append_assoc, ending]
  cases stem : writer.stem with
  | nil =>
    have head : ∀ bucket, (ending bucket).head? ≠ some '/' := by
      intro bucket
      cases bucket <;> decide
    by_cases bare : (writer.output.text.isEmpty || writer.output.text.getLast? == some '/') = true
    · refine ⟨writer.output.text, fun bucket => ?_⟩
      rw [text, stem, List.nil_append, Path.join, if_neg (head bucket), if_pos bare]
    · refine ⟨writer.output.text ++ ['/'], fun bucket => ?_⟩
      rw [text, stem, List.nil_append, Path.join, if_neg (head bucket), if_neg bare]
      simp
  | cons c cs =>
    refine ⟨(writer.output.join (c :: cs)).text, fun bucket => ?_⟩
    rw [text, stem]
    by_cases slash : c = '/'
    · simp [Path.join, slash]
    · simp only [Path.join, List.cons_append, List.head?_cons, Option.some.injEq, slash, if_false]
      split <;> simp

/-- The files of the buckets have names of their own. -/
theorem exists_names_path (writer : BucketWriter) :
    ∃ lead, ∀ bucket, (writer.path bucket).Names (lead ++ ending bucket) := by
  obtain ⟨before, texts⟩ := writer.exists_path_text
  obtain ⟨lead, ends⟩ : ∃ lead, (Text.pieces '/' before).getLast? = some lead :=
    ⟨_, List.getLast?_eq_some_getLast (Text.pieces_ne_nil '/' before)⟩
  refine ⟨lead, fun bucket => ?_⟩
  have plain : '/' ∉ ending bucket := by cases bucket <;> decide
  have long : 2 < (ending bucket).length := by cases bucket <;> decide
  have size : 2 < (lead ++ ending bucket).length := by
    rw [List.length_append]
    omega
  refine ⟨?_, ?_, ?_⟩
  · rw [texts bucket]
    exact Text.getLast?_pieces_append plain ends
  · intro eq
    simp [eq] at size
  · rw [Tree.isDots, Bool.or_eq_false_iff, decide_eq_false_iff_not, decide_eq_false_iff_not]
    constructor
    · intro eq
      simp [eq] at size
    · intro eq
      simp [eq] at size

/-- No two buckets have their file at one place. -/
theorem eq_of_landing {writer : BucketWriter} {tree : Tree} {bucket bucket' : Bucket}
    {loc : Location} (below : loc ≠ []) (landed : tree.landing (writer.path bucket) = .ok loc)
    (landed' : tree.landing (writer.path bucket') = .ok loc) : bucket = bucket' := by
  obtain ⟨lead, named⟩ := writer.exists_names_path
  have last := Tree.getLast?_of_landing (named bucket') below landed'
  rw [Tree.getLast?_of_landing (named bucket) below landed, Option.some.injEq] at last
  exact ending_injective (List.append_cancel_left last)

theorem eq_of_locate {writer : BucketWriter} {tree : Tree} {bucket bucket' : Bucket}
    {loc : Location} (below : loc ≠ []) (located : tree.locate (writer.path bucket) = .ok loc)
    (located' : tree.locate (writer.path bucket') = .ok loc) : bucket = bucket' :=
  eq_of_landing below (Tree.locate_iff_landing.1 located).1 (Tree.locate_iff_landing.1 located').1

/-- The debug log is not named like the file of a bucket. -/
def LogElsewhere (writer : BucketWriter) (tree : Tree) : Prop :=
  ∀ log ∈ tree.opened, ∀ bucket, log.getLast? ≠ (writer.path bucket).fileName

theorem LogElsewhere.not_opened {writer : BucketWriter} {tree : Tree} {bucket : Bucket}
    {loc : Location} (h : writer.LogElsewhere tree) (below : loc ≠ [])
    {tree' : Tree} (landed : tree'.landing (writer.path bucket) = .ok loc) :
    tree.opened ≠ some loc := by
  obtain ⟨lead, named⟩ := writer.exists_names_path
  intro isOpen
  refine h loc isOpen bucket ?_
  rw [(named bucket).fileName, Tree.getLast?_of_landing (named bucket) below landed]

/-! ### Writing -/

/-- Leaving out unused imports changes the log at most. -/
theorem on_usage (c : Classifier) (name : Text) {src : Text} {file : SourceFile}
    (parsed : SourceFile.ofSource src = .ok file) (site : Site) :
    ∃ after, ((Pruner.usage c).prune name src).on site = (.ok (file.pruned.render c), after) ∧
      Tree.Rewritten (fun loc => site.tree.opened = some loc) site.tree after.tree := by
  have read : (SiteM.lift ((SourceFile.parse name src).mapError PruneError.parse)).on site =
      (.ok file, site) := by
    rw [SiteM.on_lift, SourceFile.parse_eq_ok_iff.2 parsed]
    rfl
  simp only [Pruner.usage]
  rw [SiteM.on_bind_of_ok read]
  split
  · exact ⟨_, rfl, Tree.rewritten_append ..⟩
  · exact ⟨site, rfl, .refl _ _⟩

/-- One bucket is written, whatever the log does. -/
theorem on_write {writer : BucketWriter} {c : Classifier} (pruner : writer.pruner = Pruner.usage c)
    {bucket : Bucket} {draft : Draft} {drafted kept : SourceFile}
    (parsed : SourceFile.ofSource (draft.render writer.classifier) = .ok drafted)
    (parsed' : SourceFile.ofSource (drafted.pruned.render c) = .ok kept)
    {site : Site} {loc : Location} (takes : site.tree.Takes (writer.path bucket) loc)
    (log : site.tree.opened ≠ some loc) :
    ∃ after, (writer.write bucket draft).on site =
        (.ok ⟨bucket, writer.path bucket, draft.decls.length, kept.importSpecs.length,
          draft.imports.length - kept.importSpecs.length⟩, after) ∧
      after.tree.Holds (writer.path bucket) (Content.ofText (drafted.pruned.render c)) ∧
      Tree.Rewritten (fun l => site.tree.opened = some l ∨ l = loc) site.tree after.tree := by
  obtain ⟨lead, named⟩ := writer.exists_names_path
  obtain ⟨pruned, ran, quiet⟩ := on_usage c (writer.fileName bucket) parsed site
  have takes' := takes.rewritten quiet
  generalize drafted.pruned.render c = text at parsed' ran ⊢
  have changed : (Site.change (writer.path bucket) fun tree =>
      tree.writeText (writer.path bucket) text).on pruned =
        (.ok (), { pruned with tree := pruned.tree.put loc (.file (Content.ofText text)) }) :=
    Site.on_change ((Tree.writeBytes_eq_ok_iff (named bucket)).2 ⟨loc, takes', rfl⟩)
  have asked : (SiteM.mapError (pruneFault (writer.fileName bucket))
      (writer.pruner.prune (writer.fileName bucket) (draft.render writer.classifier))).on site =
        (.ok text, pruned) := by
    rw [SiteM.on_mapError, pruner, ran]
    rfl
  have checked : (SiteM.lift ((SourceFile.parse (writer.fileName bucket) text).mapError fun e =>
      SplitError.serialization (writer.fileName bucket) e.message)).on pruned =
        (.ok kept, pruned) := by
    rw [SiteM.on_lift, SourceFile.parse_eq_ok_iff.2 parsed']
    rfl
  simp only [write]
  rw [SiteM.on_bind_of_ok asked, SiteM.on_bind_of_ok checked, SiteM.on_bind_of_ok changed,
    SiteM.on_bind_of_ok (Site.on_note _ _), SiteM.on_pure]
  have entered := Tree.rewritten_put takes'.free (Content.ofText text)
  have noted := Tree.rewritten_append (pruned.tree.put loc (.file (Content.ofText text)))
  refine ⟨_, rfl, ?_, ?_⟩
  · refine (takes'.holds (Content.ofText text)).rewritten (noted _) fun l located => ?_
    rw [entered.locate takes'.located] at located
    cases located
    rw [Tree.put_opened, quiet.opened]
    exact log
  · refine ((quiet.mono fun l => .inl).trans (entered.mono fun l => .inr)).trans
      ((noted _).mono fun l => ?_)
    rw [Tree.put_opened, quiet.opened]
    exact .inl

/-- The tree holds what was written for the bucket: its draft, read and left with the imports
it uses. -/
def Stored (writer : BucketWriter) (c : Classifier) (file : SourceFile) (tree : Tree)
    (written : WrittenBucket) : Prop :=
  ∃ withPackageDoc drafted kept,
    tree.Holds (writer.path written.bucket) (Content.ofText (drafted.pruned.render c)) ∧
      SourceFile.ofSource ((written.bucket.draft withPackageDoc file).render writer.classifier) =
        .ok drafted ∧
      SourceFile.ofSource (drafted.pruned.render c) = .ok kept ∧
      (written.bucket.draft withPackageDoc file).Read (written.bucket.decls file) drafted ∧
      drafted.pruned.Read drafted.decls kept ∧
      written.importsKept = kept.importSpecs.length ∧
      written.importsPruned = file.importSpecs.length - kept.importSpecs.length

/-- Buckets are written one after the other, and a later one leaves the earlier ones as
they are. -/
theorem on_writeEach {writer : BucketWriter} {c : Classifier}
    (pruner : writer.pruner = Pruner.usage c) {file : SourceFile} (printable : file.Printable)
    {buckets : List Bucket} (distinct : buckets.Nodup) (withPackageDoc : Bool) {site : Site}
    (takes : ∀ bucket ∈ buckets, ∃ loc, site.tree.Takes (writer.path bucket) loc)
    (log : writer.LogElsewhere site.tree) :
    ∃ written after,
      (writer.writeEach file withPackageDoc buckets).on site = (.ok written, after) ∧
        written.map (·.bucket) = buckets ∧
        (∀ w ∈ written, writer.Stored c file after.tree w) ∧
        Tree.Rewritten (fun l => site.tree.opened = some l ∨
          ∃ bucket ∈ buckets, site.tree.Takes (writer.path bucket) l) site.tree after.tree := by
  induction buckets generalizing withPackageDoc site with
  | nil => exact ⟨[], site, rfl, rfl, by simp, .refl _ _⟩
  | cons bucket rest ih =>
    rw [List.nodup_cons] at distinct
    obtain ⟨loc, takesHere⟩ := takes bucket (List.mem_cons_self ..)
    obtain ⟨drafted, kept, parsed, parsed', read, read'⟩ :=
      Bucket.exists_kept printable bucket withPackageDoc writer.classifier c
    obtain ⟨between, ran, holds, changed⟩ := on_write pruner parsed parsed' takesHere
      (log.not_opened takesHere.below (Tree.locate_iff_landing.1 takesHere.located).1)
    have takesRest : ∀ bucket ∈ rest, ∃ loc, between.tree.Takes (writer.path bucket) loc := by
      intro bucket mem
      obtain ⟨loc, takes⟩ := takes bucket (List.mem_cons_of_mem _ mem)
      exact ⟨loc, takes.rewritten changed⟩
    have logRest : writer.LogElsewhere between.tree := by
      unfold LogElsewhere
      rw [changed.opened]
      exact log
    obtain ⟨others, after, ranRest, areBuckets, stored, changedRest⟩ :=
      ih distinct.2 false takesRest logRest
    refine ⟨⟨bucket, writer.path bucket, (bucket.draft withPackageDoc file).decls.length,
      kept.importSpecs.length, file.importSpecs.length - kept.importSpecs.length⟩ :: others,
      after, ?_, by rw [List.map_cons, areBuckets], ?_, ?_⟩
    · rw [writeEach, SiteM.on_bind_of_ok ran, SiteM.on_bind_of_ok ranRest, SiteM.on_pure]
      rfl
    · refine List.forall_mem_cons.2
        ⟨⟨withPackageDoc, drafted, kept, ?_, parsed, parsed', read, read', rfl, rfl⟩, stored⟩
      refine holds.rewritten changedRest fun l located => ?_
      rw [changed.locate takesHere.located] at located
      cases located
      rintro (isOpen | ⟨other, mem, takesThere⟩)
      · have landed := (Tree.locate_iff_landing.1 takesHere.located).1
        exact logRest.not_opened takesHere.below landed isOpen
      · have apart : bucket ≠ other := fun eq => distinct.1 (eq ▸ mem)
        have located := changed.locate takesHere.located
        exact apart (eq_of_locate takesHere.below located takesThere.located)
    · refine (changed.mono fun l => ?_).trans (changedRest.mono fun l => ?_)
      · rintro (isOpen | rfl)
        · exact .inl isOpen
        · exact .inr ⟨bucket, List.mem_cons_self .., takesHere⟩
      · rintro (isOpen | ⟨other, mem, takesThere⟩)
        · exact .inl (changed.opened ▸ isOpen)
        · refine .inr ⟨other, List.mem_cons_of_mem _ mem, ?_⟩
          obtain ⟨loc', takes'⟩ := takes other (List.mem_cons_of_mem _ mem)
          have same := takesThere.located
          rw [changed.locate takes'.located] at same
          cases same
          exact takes'

/-- The file of a bucket can be removed, and those of the others stay. -/
theorem removeFile_path {writer : BucketWriter} {tree : Tree} (log : writer.LogElsewhere tree)
    {stale : Bucket} {old : Content} (there : tree.Holds (writer.path stale) old) :
    ∃ tree', tree.removeFile (writer.path stale) = .ok tree' ∧ writer.LogElsewhere tree' ∧
      ∀ bucket content, bucket ≠ stale → tree.Holds (writer.path bucket) content →
        tree'.Holds (writer.path bucket) content := by
  obtain ⟨gone, located, file⟩ := there
  have below : gone ≠ [] := by
    rintro rfl
    simp at file
  refine ⟨tree.remove gone, ?_, ?_, fun bucket content other holds => ?_⟩
  · rw [Tree.removeFile, Tree.lookup_eq_ok_iff.2 ⟨located, file⟩]
  · intro log' isOpen
    rw [Tree.remove, Option.mem_def, Option.filter_eq_some_iff] at isOpen
    exact log log' isOpen.1
  · refine holds.remove below (by simp [file]) fun loc located' eq => ?_
    exact other (eq_of_locate below (eq ▸ located') located)

/-- A note leaves the files of the buckets alone. -/
theorem LogElsewhere.holds_append {writer : BucketWriter} {tree : Tree}
    (log : writer.LogElsewhere tree) {bucket : Bucket} {content : Content}
    (holds : tree.Holds (writer.path bucket) content) (line : Text) :
    (tree.append line).Holds (writer.path bucket) content := by
  refine holds.rewritten (Tree.rewritten_append tree line) fun loc located => ?_
  obtain ⟨loc', located', file⟩ := holds
  rw [located] at located'
  cases located'
  refine log.not_opened ?_ (Tree.locate_iff_landing.1 located).1
  rintro rfl
  simp at file

/-- Removing the files of empty buckets succeeds and keeps the other files. -/
theorem on_removeStale (writer : BucketWriter) (file : SourceFile) (buckets : List Bucket)
    {site : Site} (log : writer.LogElsewhere site.tree) :
    ∃ after, (writer.removeStale file buckets).on site = (.ok (), after) ∧
      ∀ bucket content, bucket.members file ≠ [] → site.tree.Holds (writer.path bucket) content →
        after.tree.Holds (writer.path bucket) content := by
  induction buckets generalizing site with
  | nil => exact ⟨site, rfl, fun _ _ _ holds => holds⟩
  | cons stale rest ih =>
    rw [removeStale, SiteM.on_bind_of_ok (SiteM.on_look _ _)]
    by_cases there : ((stale.members file).isEmpty && site.tree.isFile (writer.path stale)) = true
    · rw [if_pos there, SiteM.on_bind_of_ok (Site.on_note _ _)]
      rw [Bool.and_eq_true, List.isEmpty_iff, Tree.isFile_iff_holds] at there
      obtain ⟨empty, old, holds⟩ := there
      generalize noting : site.noted _ = noted
      have logNoted : writer.LogElsewhere noted.tree := by
        rw [LogElsewhere, ← noting, Site.noted, (Tree.rewritten_append ..).opened]
        exact log
      have still : ∀ {bucket content}, site.tree.Holds (writer.path bucket) content →
          noted.tree.Holds (writer.path bucket) content := by
        intro bucket content holds
        rw [← noting]
        exact log.holds_append holds _
      obtain ⟨tree, removed, logRest, others⟩ := removeFile_path logNoted (still holds)
      rw [SiteM.on_bind_of_ok (Site.on_change removed)]
      obtain ⟨after, ran, kept⟩ := @ih { noted with tree := tree } logRest
      refine ⟨after, ran, fun bucket content filled holds => kept bucket content filled ?_⟩
      exact others bucket content (fun eq => filled (eq ▸ empty)) (still holds)
    · rw [if_neg there]
      exact ih log

/-! ### All buckets -/

/-- File operations succeed: the directory can be made and takes the files of the buckets. -/
def Works (writer : BucketWriter) (file : SourceFile) (tree : Tree) : Prop :=
  ∃ made, (Tree.makeDirs writer.output).on tree = (.ok (), made) ∧
    ∀ bucket ∈ Bucket.nonEmpty file, ∀ text, (made.writeText (writer.path bucket) text).isOk = true

/-- The buckets of a printable source are written. -/
theorem exists_writeAll {writer : BucketWriter} {c : Classifier}
    (pruner : writer.pruner = Pruner.usage c) {file : SourceFile} (printable : file.Printable)
    (site : Site) (works : writer.Works file site.tree) (log : writer.LogElsewhere site.tree) :
    ∃ written after, (writer.writeAll file).on site = (.ok written, after) ∧
      written.map (·.bucket) = Bucket.nonEmpty file ∧
      ∀ w ∈ written, writer.Stored c file after.tree w := by
  obtain ⟨made, ranDirs, writes⟩ := works
  obtain ⟨lead, named⟩ := writer.exists_names_path
  have takes : ∀ bucket ∈ Bucket.nonEmpty file, ∃ loc, made.Takes (writer.path bucket) loc := by
    intro bucket mem
    have ok := writes bucket mem []
    cases written : made.writeText (writer.path bucket) [] with
    | error e => simp [written, Except.isOk, Except.toBool] at ok
    | ok tree =>
      obtain ⟨loc, takes, -⟩ := (Tree.writeBytes_eq_ok_iff (named bucket)).1 written
      exact ⟨loc, takes⟩
  have logMade : writer.LogElsewhere made := by
    rw [LogElsewhere, (Tree.makeDirs_grown ranDirs).opened]
    exact log
  have distinct : (Bucket.nonEmpty file).Nodup := List.filter_sublist.nodup (by decide)
  obtain ⟨written, between, ranWrites, areBuckets, stored, changed⟩ :=
    @on_writeEach writer c pruner file printable _ distinct true { site with tree := made } takes
      logMade
  have logBetween : writer.LogElsewhere between.tree := by
    rw [LogElsewhere, changed.opened]
    exact logMade
  obtain ⟨after, ranRemoval, kept⟩ := writer.on_removeStale file Bucket.all logBetween
  refine ⟨written, after, ?_, areBuckets, fun w mem => ?_⟩
  · rw [writeAll, SiteM.on_bind_of_ok (Site.on_makeDirs ranDirs), SiteM.on_bind_of_ok ranWrites,
      SiteM.on_bind_of_ok ranRemoval, SiteM.on_pure]
  · obtain ⟨withPackageDoc, drafted, file', holds, rest⟩ := stored w mem
    have filled : w.bucket.members file ≠ [] := by
      have nonEmpty : w.bucket ∈ Bucket.nonEmpty file := areBuckets ▸ List.mem_map_of_mem mem
      simpa using (List.mem_filter.1 nonEmpty).2
    exact ⟨withPackageDoc, drafted, file', kept w.bucket _ filled holds, rest⟩

/-- Splitting loses, duplicates and alters no declaration. -/
theorem writeAll_keeps_declarations {name src : Text} {file : SourceFile}
    (parsed : SourceFile.parse name src = .ok file) (first : file.ImportsFirst)
    (complete : ∀ d ∈ file.decls, d.isComplete = true) (plain : file.PlainImports)
    {writer : BucketWriter} {c : Classifier} (pruner : writer.pruner = Pruner.usage c) (site : Site)
    (works : writer.Works file site.tree) (log : writer.LogElsewhere site.tree) :
    ∃ written after, (writer.writeAll file).on site = (.ok written, after) ∧
      written.map (·.bucket) = Bucket.nonEmpty file ∧
      ((Bucket.nonEmpty file).flatMap fun bucket => bucket.decls file).Perm file.decls ∧
      ∀ bucket ∈ Bucket.nonEmpty file, ∃ text kept,
        after.tree.readText (writer.path bucket) = .ok text ∧
          SourceFile.parse (writer.fileName bucket) text = .ok kept ∧
          kept.package.name = file.package.name ∧
          Forall₂ (fun d d' => d.kind = d'.kind ∧ d.heading.names = d'.heading.names ∧
              d.heading.receiver = d'.heading.receiver ∧ Text.trimEnd d.text = Text.trimEnd d'.text)
            kept.decls ((bucket.members file).map (·.2)) := by
  have printable := SourceFile.printable_of_source (SourceFile.parse_eq_ok_iff.1 parsed) first
    complete plain
  obtain ⟨written, after, ran, areBuckets, stored⟩ :=
    exists_writeAll pruner printable site works log
  refine ⟨written, after, ran, areBuckets, Bucket.perm_members file, fun bucket mem => ?_⟩
  obtain ⟨w, memW, rfl⟩ : ∃ w ∈ written, w.bucket = bucket := by
    rwa [← areBuckets, List.mem_map] at mem
  obtain ⟨withPackageDoc, drafted, kept, holds, -, parsed', read, read', -⟩ := stored w memW
  have isKept := Bucket.kept_of_read read read'
  refine ⟨_, kept, holds.readText, SourceFile.parse_eq_ok_iff.2 parsed', isKept.package,
    isKept.decls.imp fun d d' same => ?_⟩
  exact ⟨congrArg Heading.kind same.heading, by rw [same.heading], by rw [same.heading], same.text⟩

/-- A file with a type and a function that uses one of two imports. -/
def sample : Text :=
  ("package p\n\nimport (\n\t\"fmt\"\n\t\"os\"\n)\n\ntype T struct\x7b\x7d\n\n" ++
    "// F prints.\nfunc F() \x7b fmt.Println() \x7d\n").toList

/-- Writes the sample to a directory that does not exist yet. -/
def sampleWriter : BucketWriter := ⟨.dotted, Pruner.usage .dotted, Path.ofString "out", ['a']⟩

theorem sampleWriter_works (file : SourceFile) :
    sampleWriter.Works file (Tree.empty ['/', 'w']) := by
  refine ⟨(Tree.empty ['/', 'w']).put ["out".toList] .directory, by rfl, ?_⟩
  intro bucket _ text
  cases bucket <;> rfl

theorem sampleWriter_logElsewhere : sampleWriter.LogElsewhere (Tree.empty ['/', 'w']) := by
  intro log isOpen
  cases isOpen

theorem writeAll_keeps_sample :
    ∃ file written after, SourceFile.parse [] sample = .ok file ∧
      (sampleWriter.writeAll file).on (Site.start (Tree.empty ['/', 'w']) 0) =
        (.ok written, after) ∧ written.map (·.bucket) = [.types, .functions] := by
  have check : (SourceFile.parse [] sample).toOption.any (fun file =>
      decide file.ImportsFirst && decide (∀ d ∈ file.decls, d.isComplete = true) &&
        decide file.PlainImports && decide (Bucket.nonEmpty file = [.types, .functions])) =
          true := by
    unfold sample
    rw [String.toList_append, String.toList_ofList, String.toList_ofList]
    decide +kernel
  obtain ⟨file, parsed, passed⟩ := SourceFile.exists_of_toOption_any check
  simp only [Bool.and_eq_true, decide_eq_true_eq] at passed
  obtain ⟨⟨⟨first, complete⟩, plain⟩, buckets⟩ := passed
  obtain ⟨written, after, ran, areBuckets, -⟩ := writeAll_keeps_declarations parsed first complete
    plain (c := .dotted) rfl (Site.start (Tree.empty ['/', 'w']) 0) (sampleWriter_works file)
      sampleWriter_logElsewhere
  exact ⟨file, written, after, parsed, ran, areBuckets.trans buckets⟩

end BucketWriter

end GoSplit
