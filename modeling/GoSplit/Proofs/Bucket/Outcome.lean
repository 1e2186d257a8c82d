import GoSplit.Proofs.Bucket.Writing
import GoSplit.Proofs.Tree.Soundness

/-!
What is there after the buckets of a source were written, for any pruner that looks at nothing
but the text it is given: a bucket with declarations has the file that was made for it, and a
bucket without any has no file, whatever was there before.
-/

namespace GoSplit

theorem Tree.Quiet.note {ε : Type} {line : String} {site after : Site} {result : Except ε Unit}
    (ran : (SiteM.note line : SiteM ε Unit).on site = (result, after)) :
    Tree.Quiet site.tree after.tree := by
  cases ran
  exact .append ..

namespace Pruner

/-- The pruner can answer with the text. -/
def Gives (pruner : Pruner) (name src text : Text) : Prop :=
  ∃ site after, (pruner.prune name src).on site = (.ok text, after)

/-- A pruner that goes by the name and the text of a file alone, and changes nothing but the log. -/
structure Steady (pruner : Pruner) : Prop where
  gives : ∀ name src text text', pruner.Gives name src text → pruner.Gives name src text' →
    text = text'
  quiet : ∀ name src site result after, (pruner.prune name src).on site = (result, after) →
    site.tree.Quiet after.tree

/-- The pruner that goes by the selectors of a file renders what it has parsed. -/
theorem on_usage_cases {classifier : Classifier} {name src : Text} {site after : Site}
    {result : Except PruneError Text}
    (ran : ((Pruner.usage classifier).prune name src).on site = (result, after)) :
    site.tree.Quiet after.tree ∧ ∀ text, result = .ok text →
      ∃ file, SourceFile.parse name src = .ok file ∧ text = file.pruned.render classifier := by
  rw [Pruner.usage, SiteM.on_bind, SiteM.on_lift] at ran
  cases parsed : SourceFile.parse name src with
  | error e =>
    simp only [parsed, Except.mapError, Prod.mk.injEq] at ran
    obtain ⟨rfl, rfl⟩ := ran
    exact ⟨.refl _, by simp⟩
  | ok file =>
    simp only [parsed, Except.mapError] at ran
    split at ran
    · cases ran
      exact ⟨.append _ _, fun text eq => ⟨file, rfl, by cases eq; rfl⟩⟩
    · cases ran
      exact ⟨.refl _, fun text eq => ⟨file, rfl, by cases eq; rfl⟩⟩

theorem gives_usage {classifier : Classifier} {name src text : Text}
    (h : (Pruner.usage classifier).Gives name src text) :
    ∃ file, SourceFile.parse name src = .ok file ∧ text = file.pruned.render classifier := by
  obtain ⟨site, after, ran⟩ := h
  exact (on_usage_cases ran).2 text rfl

theorem steady_usage (classifier : Classifier) : (Pruner.usage classifier).Steady := by
  refine ⟨fun name src text text' h h' => ?_, fun name src site result after ran => ?_⟩
  · obtain ⟨file, parsed, rfl⟩ := gives_usage h
    obtain ⟨file', parsed', rfl⟩ := gives_usage h'
    rw [parsed] at parsed'
    cases parsed'
    rfl
  · exact (on_usage_cases ran).1

end Pruner

namespace BucketWriter

variable {writer : BucketWriter} {file : SourceFile} {site after : Site}

/-- The text made for a bucket before its imports are pruned. -/
def draftText (writer : BucketWriter) (file : SourceFile) (withPackageDoc : Bool)
    (bucket : Bucket) :
    Text :=
  (bucket.draft withPackageDoc file).render writer.classifier

theorem sound_put {tree : Tree} {path : Path} {name : Text} {loc : Location} (sound : tree.Sound)
    (named : path.Names name) (takes : tree.Takes path loc) (content : Content) :
    (tree.put loc (.file content)).Sound := by
  obtain ⟨entered, stepped⟩ := Tree.enter_of_locate named takes.below takes.located
  obtain ⟨below, above, names⟩ := sound.entered entered stepped takes.free
  exact sound.put below above names (.inr takes.free)

/-- The text is what the pruner makes of the bucket's draft, and it parses. -/
def Makes (writer : BucketWriter) (file : SourceFile) (withPackageDoc : Bool) (bucket : Bucket)
    (text : Text) : Prop :=
  writer.pruner.Gives (writer.fileName bucket) (writer.draftText file withPackageDoc bucket) text ∧
    ∃ kept, SourceFile.parse (writer.fileName bucket) text = .ok kept

/-- Either the file of one bucket is written, or nothing is. -/
theorem write_outcome (steady : writer.pruner.Steady) {bucket : Bucket} {withPackageDoc : Bool}
    {result : Except SplitError WrittenBucket}
    (ran : (writer.write bucket (bucket.draft withPackageDoc file)).on site = (result, after)) :
    site.tree.Quiet after.tree ∧ (∀ written, result ≠ .ok written) ∨
      ∃ text loc, (∃ written, result = .ok written) ∧ writer.Makes file withPackageDoc bucket text ∧
        loc ≠ [] ∧ site.tree.landing (writer.path bucket) = .ok loc ∧
        (site.tree.InOrder → after.tree.InOrder) ∧
        Tree.Rewritten (fun l => site.tree.opened = some l ∨ l = loc) site.tree after.tree ∧
        (site.tree.opened ≠ some loc → after.tree.find? loc = some (.file (.ofText text))) := by
  obtain ⟨lead, named⟩ := writer.exists_names_path
  rcases SiteM.on_bind_cases ran with ⟨e, failed, rfl⟩ | ⟨text, pruned, pruning, ran⟩
  · -- The pruner fails.
    obtain ⟨r, failed, -⟩ := SiteM.on_mapError_cases failed
    exact .inl ⟨steady.quiet _ _ _ _ _ failed, by simp⟩
  rw [SiteM.on_mapError_eq_ok_iff] at pruning
  have quiet := steady.quiet _ _ _ _ _ pruning
  rcases SiteM.on_bind_cases ran with ⟨e, failed, rfl⟩ | ⟨kept, mid, lifted, ran⟩
  · -- The text does not parse.
    obtain ⟨-, rfl⟩ := SiteM.on_lift_eq_iff.1 failed
    exact .inl ⟨quiet, by simp⟩
  obtain ⟨checked, rfl⟩ := SiteM.on_lift_eq_iff.1 lifted
  rcases SiteM.on_bind_cases ran with ⟨e, failed, rfl⟩ | ⟨_, changed, changing, ran⟩
  · -- The text cannot be written.
    rcases Site.on_change_cases failed with ⟨rfl, -⟩ | ⟨_, -, -, ok⟩
    · exact .inl ⟨quiet, by simp⟩
    · cases ok
  obtain ⟨tree, wrote, rfl⟩ := Site.on_change_eq_ok_iff.1 changing
  cases ran
  obtain ⟨loc, takes, rfl⟩ := (Tree.writeBytes_eq_ok_iff (named bucket)).1 wrote
  have noted := Tree.Quiet.append (pruned.tree.put loc (.file (.ofText text)))
  have entered := Tree.rewritten_put takes.free (.ofText text)
  have opened : (pruned.tree.put loc (.file (.ofText text))).opened = site.tree.opened :=
    quiet.rewritten.opened
  have parsed : SourceFile.parse (writer.fileName bucket) text = .ok kept := by
    cases parsing : SourceFile.parse (writer.fileName bucket) text with
    | error e => simp [parsing, Except.mapError] at checked
    | ok found => simpa [parsing, Except.mapError] using checked
  refine .inr ⟨text, loc, ⟨_, rfl⟩, ⟨⟨site, pruned, pruning⟩, kept, parsed⟩, takes.below, ?_,
    fun inOrder => ?_, ?_, fun log => ?_⟩
  · rw [← Tree.landing_congr quiet.rewritten.base]
    exact (Tree.locate_iff_landing.1 takes.located).1
  · apply (noted _).inOrder
    have before := quiet.inOrder inOrder
    exact before.put_file (sound_put before.sound (named bucket) takes _) takes.below
  · refine ((quiet.rewritten.mono fun l => .inl).trans (entered.mono fun l => .inr)).trans
      ((noted _).rewritten.mono fun l isOpen => .inl ?_)
    rwa [opened] at isOpen
  · refine ((noted _).rewritten.same loc (by rwa [opened])).trans ?_
    rw [Tree.find?_put takes.below, if_pos rfl]

/-! ### Places -/

/-- The log is no bucket's file. -/
def LogApart (writer : BucketWriter) (tree : Tree) : Prop :=
  ∀ bucket loc, tree.landing (writer.path bucket) = .ok loc → tree.opened ≠ some loc

theorem LogApart.stays {tree tree' : Tree} (h : writer.LogApart tree) (same : tree.Stays tree') :
    writer.LogApart tree' := by
  intro bucket loc landed
  rw [Tree.landing_congr same.base] at landed
  rw [same.opened]
  exact h bucket loc landed

theorem LogElsewhere.apart {tree : Tree} (inOrder : tree.InOrder) (log : writer.LogElsewhere tree) :
    writer.LogApart tree := by
  intro bucket loc landed isOpen
  have below : loc ≠ [] := by
    rintro rfl
    obtain ⟨content, found⟩ := inOrder.log [] isOpen
    simp at found
  exact log.not_opened below landed isOpen

/-- The place of a bucket's file in the output directory. -/
structure Places (writer : BucketWriter) (tree : Tree) (root : Location) : Prop where
  plain : '/' ∉ writer.stem
  landed : tree.landing writer.output = .ok root
  below : root ≠ []
  log : ∀ l, tree.opened = some l → ¬ root <+: l

theorem isWord_fileName (plain : '/' ∉ writer.stem) (bucket : Bucket) :
    Tree.IsWord (writer.fileName bucket) := by
  have whole : '/' ∉ writer.fileName bucket := by
    rw [fileName, Bucket.fileName, List.append_assoc, List.mem_append, not_or]
    exact ⟨plain, by cases bucket <;> decide⟩
  have long : 2 < (writer.fileName bucket).length := by
    rw [fileName, Bucket.fileName, List.append_assoc, List.length_append]
    have ending : 2 < (bucket.suffix ++ ".go".toList).length := by cases bucket <;> decide
    omega
  refine ⟨?_, ?_, whole⟩
  · intro eq
    simp [eq] at long
  · rw [Tree.isDots, Bool.or_eq_false_iff, decide_eq_false_iff_not, decide_eq_false_iff_not]
    constructor
    · intro eq
      simp [eq] at long
    · intro eq
      simp [eq] at long

namespace Places

variable {tree tree' : Tree} {root : Location}

theorem stays (h : writer.Places tree root) (same : tree.Stays tree') :
    writer.Places tree' root := by
  refine ⟨h.plain, by rw [Tree.landing_congr same.base, h.landed], h.below, ?_⟩
  rw [same.opened]
  exact h.log

theorem landing_path (h : writer.Places tree root) {bucket : Bucket} {loc : Location}
    (landed : tree.landing (writer.path bucket) = .ok loc) :
    loc = root ++ [writer.fileName bucket] ∧ Tree.IsName (writer.fileName bucket) := by
  have words : ∀ name ∈ [writer.fileName bucket], Tree.IsWord name :=
    List.forall_mem_singleton.2 (isWord_fileName h.plain bucket)
  obtain ⟨rfl, names⟩ := Tree.isName_of_landing_pathIn h.landed h.below words landed
  exact ⟨rfl, names _ (List.mem_singleton_self _)⟩

theorem not_log (h : writer.Places tree root) {bucket : Bucket} {loc : Location}
    (landed : tree.landing (writer.path bucket) = .ok loc) : tree.opened ≠ some loc := by
  intro isOpen
  apply h.log loc isOpen
  rw [(h.landing_path landed).1]
  exact List.prefix_append ..

theorem logApart (h : writer.Places tree root) : writer.LogApart tree :=
  fun _ _ landed => h.not_log landed

/-- A file in the place of a bucket's file can be seen there. -/
theorem isFile (h : writer.Places tree root) (sound : tree.Sound)
    (there : tree.isDir writer.output = true) {bucket : Bucket} {loc : Location}
    (landed : tree.landing (writer.path bucket) = .ok loc) {content : Content}
    (found : tree.find? loc = some (.file content)) : tree.isFile (writer.path bucket) = true := by
  have words : ∀ name ∈ [writer.fileName bucket], Tree.IsWord name :=
    List.forall_mem_singleton.2 (isWord_fileName h.plain bucket)
  exact Tree.isFile_iff_holds.2
    ⟨content, loc, sound.locate_pathIn there h.landed h.below words landed found, found⟩

end Places

/-! ### All buckets -/

/-- However far writing gets, a bucket's file is either the one made for it or as it was. -/
theorem writeEach_outcome (steady : writer.pruner.Steady) {buckets : List Bucket}
    (distinct : buckets.Nodup) {withPackageDoc : Bool}
    {result : Except SplitError (List WrittenBucket)} (log : writer.LogApart site.tree)
    (inOrder : site.tree.InOrder)
    (ran : (writer.writeEach file withPackageDoc buckets).on site = (result, after)) :
    after.tree.InOrder ∧
      Tree.Rewritten (fun l => site.tree.opened = some l ∨
        ∃ bucket ∈ buckets, site.tree.landing (writer.path bucket) = .ok l) site.tree after.tree ∧
      ∀ bucket ∈ buckets,
        (∃ text loc, site.tree.landing (writer.path bucket) = .ok loc ∧
          writer.Makes file (withPackageDoc && buckets.head? == some bucket) bucket text ∧
          after.tree.find? loc = some (.file (.ofText text))) ∨
        (∀ written, result ≠ .ok written) ∧
          ∀ loc, site.tree.landing (writer.path bucket) = .ok loc →
            after.tree.find? loc = site.tree.find? loc := by
  induction buckets generalizing withPackageDoc site result with
  | nil =>
    cases ran
    exact ⟨inOrder, .refl _ _, by simp⟩
  | cons bucket rest ih =>
    rw [List.nodup_cons] at distinct
    rcases SiteM.on_bind_cases ran with ⟨e, failed, rfl⟩ | ⟨first, mid, ranFirst, ran⟩
    · rcases write_outcome steady failed with ⟨quiet, -⟩ | ⟨_, _, ⟨_, ok⟩, -⟩
      · refine ⟨quiet.inOrder inOrder, quiet.rewritten.mono fun l => .inl, fun other mem => ?_⟩
        exact .inr ⟨by simp, fun loc landed => quiet.rewritten.same loc (log other loc landed)⟩
      · cases ok
    obtain ⟨r, ranRest, fails⟩ : ∃ r, (writer.writeEach file false rest).on mid = (r, after) ∧
        ((∀ written, r ≠ .ok written) → ∀ written, result ≠ .ok written) := by
      rcases SiteM.on_bind_cases ran with ⟨e, failed, rfl⟩ | ⟨others, last, ranRest, ran⟩
      · exact ⟨_, failed, by simp⟩
      · cases ran
        exact ⟨_, ranRest, fun none => absurd rfl (none others)⟩
    rcases write_outcome steady ranFirst with ⟨-, none⟩ |
      ⟨text, loc, -, makes, below, landed, keeps, changed, found⟩
    · exact absurd rfl (none first)
    obtain ⟨inOrder'', changed', stored⟩ :=
      ih distinct.2 (log.stays changed.stays) (keeps inOrder) ranRest
    have landing : ∀ path, mid.tree.landing path = site.tree.landing path :=
      fun path => Tree.landing_congr changed.base path
    refine ⟨inOrder'', (changed.mono fun l => ?_).trans (changed'.mono fun l => ?_),
      List.forall_mem_cons.2 ⟨.inl ⟨text, loc, landed, by simpa using makes, ?_⟩,
        fun other mem => ?_⟩⟩
    · rintro (isOpen | rfl)
      · exact .inl isOpen
      · exact .inr ⟨bucket, List.mem_cons_self .., landed⟩
    · rintro (isOpen | ⟨other, mem, landed'⟩)
      · exact .inl (changed.opened ▸ isOpen)
      · exact .inr ⟨other, List.mem_cons_of_mem _ mem, landing _ ▸ landed'⟩
    · rw [changed'.same loc, found (log bucket loc landed)]
      rintro (isOpen | ⟨other, mem, landed'⟩)
      · exact log bucket loc landed (changed.opened ▸ isOpen)
      · rw [landing] at landed'
        exact distinct.1 (eq_of_landing below landed landed' ▸ mem)
    · have apart : bucket ≠ other := fun eq => distinct.1 (eq ▸ mem)
      have flag : (withPackageDoc && (bucket :: rest).head? == some other) = false := by
        simp [apart]
      rcases stored other mem with ⟨text', loc', landed', makes', found'⟩ | ⟨none, same⟩
      · exact .inl ⟨text', loc', landing _ ▸ landed', by rwa [flag], found'⟩
      · refine .inr ⟨fails none, fun loc' landed' => ?_⟩
        rw [same loc' (by rwa [landing]), changed.same loc']
        rintro (isOpen | rfl)
        · exact log other loc' landed' isOpen
        · exact apart (eq_of_landing below landed landed')

/-- One bucket's file is removed, if it should not be there. -/
theorem removeStale_cons {bucket : Bucket} {rest : List Bucket} {result : Except SplitError Unit}
    (log : writer.LogApart site.tree) (inOrder : site.tree.InOrder)
    (ran : (writer.removeStale file (bucket :: rest)).on site = (result, after)) :
    ∃ mid : Site,
      Tree.Rewritten (fun l => site.tree.opened = some l ∨ (bucket.members file).isEmpty = true ∧
        site.tree.landing (writer.path bucket) = .ok l) site.tree mid.tree ∧ mid.tree.InOrder ∧
      (mid = after ∧ result ≠ .ok () ∨ (writer.removeStale file rest).on mid = (result, after) ∧
        ((bucket.members file).isEmpty = true →
          ∀ loc, site.tree.landing (writer.path bucket) = .ok loc →
            ∀ content, mid.tree.find? loc = some (.file content) →
              site.tree.find? loc = some (.file content) ∧
                site.tree.isFile (writer.path bucket) = false)) := by
  rw [removeStale, SiteM.on_bind_of_ok (SiteM.on_look _ _)] at ran
  by_cases stale : ((bucket.members file).isEmpty && site.tree.isFile (writer.path bucket)) = true
  · rw [if_pos stale, SiteM.on_bind_of_ok (Site.on_note _ _)] at ran
    rw [Bool.and_eq_true] at stale
    have quiet : site.tree.Quiet (site.noted s!"removing stale {(writer.path bucket).str}").tree :=
      .append ..
    generalize site.noted s!"removing stale {(writer.path bucket).str}" = noted at ran quiet
    have inOrder' := quiet.inOrder inOrder
    have still : Tree.Rewritten (fun l => site.tree.opened = some l ∨
        (bucket.members file).isEmpty = true ∧ site.tree.landing (writer.path bucket) = .ok l)
        site.tree noted.tree := quiet.rewritten.mono fun l => .inl
    rcases SiteM.on_bind_cases ran with ⟨e, failed, rfl⟩ | ⟨_, removed, removing, ran⟩
    · rcases Site.on_change_cases failed with ⟨rfl, none⟩ | ⟨_, -, -, ok⟩
      · exact ⟨after, still, inOrder', .inl ⟨rfl, by simp⟩⟩
      · cases ok
    obtain ⟨tree, dropped, rfl⟩ := Site.on_change_eq_ok_iff.1 removing
    unfold Tree.removeFile at dropped
    split at dropped
    · cases dropped
    · cases dropped
    next loc content looked =>
    cases dropped
    obtain ⟨located, found⟩ := Tree.lookup_eq_ok_iff.1 looked
    have landed : site.tree.landing (writer.path bucket) = .ok loc := by
      rw [← Tree.landing_congr quiet.rewritten.base]
      exact (Tree.locate_iff_landing.1 located).1
    obtain ⟨changed, inOrder''⟩ := Tree.rewritten_remove inOrder' found
      (by rw [quiet.rewritten.opened]; exact log bucket loc landed)
    refine ⟨_, still.trans (changed.mono ?_), inOrder'',
      .inr ⟨ran, fun _ loc' landed' content' found' => ?_⟩⟩
    · rintro l rfl
      exact .inr ⟨stale.1, landed⟩
    · rw [landed] at landed'
      cases landed'
      have below : loc ≠ [] := by
        rintro rfl
        simp at found
      simp [Tree.find?_remove below] at found'
  · rw [if_neg stale] at ran
    refine ⟨site, .refl _ _, inOrder, .inr ⟨ran, fun empty loc landed content found => ⟨found, ?_⟩⟩⟩
    rw [empty, Bool.true_and] at stale
    simpa using stale

/-- However far it gets, removing files removes those of buckets without declarations only. -/
theorem removeStale_outcome {buckets : List Bucket} {result : Except SplitError Unit}
    (log : writer.LogApart site.tree) (inOrder : site.tree.InOrder)
    (ran : (writer.removeStale file buckets).on site = (result, after)) :
    after.tree.InOrder ∧
      Tree.Rewritten (fun l => site.tree.opened = some l ∨
        ∃ bucket ∈ buckets, (bucket.members file).isEmpty = true ∧
          site.tree.landing (writer.path bucket) = .ok l) site.tree after.tree := by
  induction buckets generalizing site with
  | nil =>
    cases ran
    exact ⟨inOrder, .refl _ _⟩
  | cons bucket rest ih =>
    obtain ⟨mid, changed, inOrder', more⟩ := removeStale_cons log inOrder ran
    have first : Tree.Rewritten (fun l => site.tree.opened = some l ∨
        ∃ other ∈ bucket :: rest, (Bucket.members other file).isEmpty = true ∧
          site.tree.landing (writer.path other) = .ok l) site.tree mid.tree := by
      refine changed.mono fun l => ?_
      rintro (isOpen | ⟨empty, landed⟩)
      · exact .inl isOpen
      · exact .inr ⟨bucket, List.mem_cons_self .., empty, landed⟩
    rcases more with ⟨rfl, -⟩ | ⟨ran, -⟩
    · exact ⟨inOrder', first⟩
    · obtain ⟨inOrder'', changed'⟩ := ih (log.stays changed.stays) inOrder' ran
      refine ⟨inOrder'', first.trans (changed'.mono fun l => ?_)⟩
      rintro (isOpen | ⟨other, mem, empty, landed⟩)
      · exact .inl (changed.opened ▸ isOpen)
      · rw [Tree.landing_congr changed.base] at landed
        exact .inr ⟨other, List.mem_cons_of_mem _ mem, empty, landed⟩

/-- No file is left behind for a bucket without declarations. -/
theorem removeStale_eq_ok {root : Location} {buckets : List Bucket}
    (places : writer.Places site.tree root) (inOrder : site.tree.InOrder)
    (there : site.tree.isDir writer.output = true)
    (ran : (writer.removeStale file buckets).on site = (.ok (), after)) :
    ∀ bucket ∈ buckets, (bucket.members file).isEmpty = true →
      ∀ loc, site.tree.landing (writer.path bucket) = .ok loc →
        ∀ content, after.tree.find? loc ≠ some (.file content) := by
  induction buckets generalizing site with
  | nil => simp
  | cons bucket rest ih =>
    obtain ⟨mid, changed, inOrder', more⟩ := removeStale_cons places.logApart inOrder ran
    rcases more with ⟨-, failed⟩ | ⟨ran, gone⟩
    · exact absurd rfl failed
    have places' := places.stays changed.stays
    have landing : ∀ path, mid.tree.landing path = site.tree.landing path :=
      fun path => Tree.landing_congr changed.base path
    have rest' := ih places' inOrder' (changed.isDir there) ran
    obtain ⟨-, changed'⟩ := removeStale_outcome places'.logApart inOrder' ran
    refine List.forall_mem_cons.2 ⟨fun empty loc landed content found => ?_,
      fun other mem empty loc landed => ?_⟩
    · by_cases again : ∃ other ∈ rest, (Bucket.members other file).isEmpty = true ∧
          mid.tree.landing (writer.path other) = .ok loc
      · obtain ⟨other, mem, empty', landed'⟩ := again
        exact rest' other mem empty' loc landed' content found
      · rw [changed'.same loc] at found
        · obtain ⟨found', hidden⟩ := gone empty loc landed content found
          rw [places.isFile inOrder.sound there landed found'] at hidden
          cases hidden
        · rintro (isOpen | touched)
          · exact places.not_log landed (changed.opened ▸ isOpen)
          · exact again touched
    · exact rest' other mem empty loc (by rwa [landing])

/-- The place of a bucket's file holds what was made for the bucket: nothing, if there is no
declaration to go there. -/
def Filled (writer : BucketWriter) (file : SourceFile) (tree : Tree) (bucket : Bucket)
    (loc : Location) : Prop :=
  if (bucket.members file).isEmpty then ∀ content, tree.find? loc ≠ some (.file content)
  else ∃ text, writer.pruner.Gives (writer.fileName bucket)
      (writer.draftText file ((Bucket.nonEmpty file).head? == some bucket) bucket) text ∧
    tree.find? loc = some (.file (.ofText text))

theorem Filled.file_iff (steady : writer.pruner.Steady) {tree tree' : Tree} {bucket : Bucket}
    {loc : Location} (h : writer.Filled file tree bucket loc)
    (h' : writer.Filled file tree' bucket loc) (content : Content) :
    tree'.find? loc = some (.file content) ↔ tree.find? loc = some (.file content) := by
  unfold Filled at h h'
  split at h
  · next empty =>
    rw [if_pos empty] at h'
    exact iff_of_false (h' content) (h content)
  · next filled =>
    rw [if_neg filled] at h'
    obtain ⟨text, gives, found⟩ := h
    obtain ⟨text', gives', found'⟩ := h'
    rw [found, found', steady.gives _ _ _ _ gives gives']

/-- Writing all buckets leaves the same files, whatever was there before. -/
theorem writeAll_eq_ok (steady : writer.pruner.Steady) {root : Location}
    {written : List WrittenBucket} (places : writer.Places site.tree root)
    (inOrder : site.tree.InOrder) (ran : (writer.writeAll file).on site = (.ok written, after)) :
    site.tree.Stays after.tree ∧ after.tree.InOrder ∧ after.tree.isDir writer.output = true ∧
      ∀ bucket loc, site.tree.landing (writer.path bucket) = .ok loc →
        writer.Filled file after.tree bucket loc := by
  obtain ⟨_, dirs, making, ran⟩ := SiteM.on_bind_eq_ok_iff.1 ran
  obtain ⟨_, wrote, writing, ran⟩ := SiteM.on_bind_eq_ok_iff.1 ran
  obtain ⟨_, cleaned, cleaning, ran⟩ := SiteM.on_bind_eq_ok_iff.1 ran
  cases ran
  obtain ⟨made, makes, rfl⟩ := Site.on_files_eq_ok_iff.1 making
  have grown := Tree.makeDirs_grown makes
  have stays : site.tree.Stays made := ⟨grown.base, grown.mounts, grown.refuses, grown.opened⟩
  have there : made.isDir writer.output = true :=
    Tree.isDir_of_makeDirsFrom makes (Tree.text_ne_nil_of_landing places.landed)
  have distinct : (Bucket.nonEmpty file).Nodup := List.filter_sublist.nodup (by decide)
  obtain ⟨inOrder', changed, stored⟩ :=
    @writeEach_outcome writer file { site with tree := made } wrote steady _ distinct true _
      (places.stays stays).logApart (inOrder.makeDirs makes) writing
  have places' := places.stays (stays.trans changed.stays)
  obtain ⟨inOrder'', changed'⟩ := removeStale_outcome places'.logApart inOrder' cleaning
  have gone := removeStale_eq_ok places' inOrder' (changed.isDir there) cleaning
  have landing : ∀ path, made.landing path = site.tree.landing path :=
    fun path => Tree.landing_congr stays.base path
  have landing' : ∀ path, wrote.tree.landing path = site.tree.landing path :=
    fun path => Tree.landing_congr (stays.trans changed.stays).base path
  refine ⟨(stays.trans changed.stays).trans changed'.stays, inOrder'',
    changed'.isDir (changed.isDir there), fun bucket loc landed => ?_⟩
  have listed : bucket ∈ Bucket.all := by cases bucket <;> decide
  unfold Filled
  split
  · next empty => exact gone bucket listed empty loc (by rwa [landing'])
  · next filled =>
    have mem : bucket ∈ Bucket.nonEmpty file := List.mem_filter.2 ⟨listed, by simpa using filled⟩
    rcases stored bucket mem with ⟨text, loc', landed', makes, found⟩ | ⟨none, -⟩
    · rw [landing, landed] at landed'
      cases landed'
      refine ⟨text, by simpa using makes.1, ?_⟩
      rw [changed'.same loc, found]
      rintro (isOpen | ⟨other, -, empty, landed'⟩)
      · exact places'.not_log (by rwa [landing']) isOpen
      · have below : loc ≠ [] := by
          rintro rfl
          simp at found
        have same := eq_of_landing below ((landing' _).trans landed) landed'
        exact filled (same ▸ empty)
    · exact absurd rfl (none _)

end BucketWriter

end GoSplit
