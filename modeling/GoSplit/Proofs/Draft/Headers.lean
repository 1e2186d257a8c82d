import GoSplit.Proofs.Draft.Comments
import GoSplit.Proofs.Draft.RoundTrip

/-!
Headers that are read from what a draft writes. The groups of comments are found again as
they were; build constraints, which are written in one group, are found again as
constraints, or as a group like any other when trimming them has left no condition.
-/

namespace GoSplit

open List (Forall₂)
open Token (Chained Fills Reads pushGap)

namespace Header

/-! ### Groups of comments -/

/-- Comments without an empty line between them, which fill a text. -/
structure Clump (group : List Token) (text : Text) : Prop where
  fills : Fills group text
  spell : Token.spell group = text
  comments : ∀ c ∈ group, c.isComment = true
  nonempty : group ≠ []
  tight : ∀ c ∈ group.tail, c.gap.hasBlankLine = false

/-- Whether the group is one of build constraints. -/
def constrains (group : List Token) : Bool := group.all fun t => isBuildConstraint t.text

theorem groups_ne_nil (t : Token) (ts : List Token) : groups (t :: ts) ≠ [] := by
  intro none
  have all := groups_flatten (t :: ts)
  simp [none] at all

theorem groups_append {group : List Token} (nonempty : group ≠ [])
    (tight : ∀ c ∈ group.tail, c.gap.hasBlankLine = false) {t : Token}
    (apart : t.gap.hasBlankLine = true) (ts : List Token) :
    groups (group ++ t :: ts) = group :: groups (t :: ts) := by
  induction group with
  | nil => exact absurd rfl nonempty
  | cons c group ih =>
    rw [List.tail_cons] at tight
    cases group with
    | nil =>
      cases found : groups (t :: ts) with
      | nil => exact absurd found (groups_ne_nil t ts)
      | cons g gs =>
        rw [List.singleton_append, groups_cons found]
        simp [apart]
    | cons d group =>
      obtain ⟨near, others⟩ := List.forall_mem_cons.1 tight
      have rest := ih (by simp) others
      rw [List.cons_append] at rest
      rw [List.cons_append, List.cons_append, groups_cons rest]
      simp [near]

theorem groups_singleton {group : List Token} (nonempty : group ≠ [])
    (tight : ∀ c ∈ group.tail, c.gap.hasBlankLine = false) : groups group = [group] := by
  induction group with
  | nil => exact absurd rfl nonempty
  | cons c group ih =>
    rw [List.tail_cons] at tight
    cases group with
    | nil => rfl
    | cons d group =>
      obtain ⟨near, others⟩ := List.forall_mem_cons.1 tight
      rw [groups_cons (ih (by simp) others)]
      simp [near]

/-- Every group that has been found is one. -/
theorem tight_of_mem_groups {cs group : List Token} (mem : group ∈ groups cs) :
    group ≠ [] ∧ ∀ c ∈ group.tail, c.gap.hasBlankLine = false := by
  induction cs generalizing group with
  | nil => simp [groups] at mem
  | cons t ts ih =>
    cases ts with
    | nil =>
      obtain rfl : group = [t] := by simpa [groups] using mem
      simp
    | cons next others =>
      have all := groups_flatten (next :: others)
      cases found : groups (next :: others) with
      | nil => exact absurd found (groups_ne_nil next others)
      | cons g gs =>
        rw [found] at ih all
        have first := ih (List.mem_cons_self ..)
        rw [groups_cons found] at mem
        split at mem
        · rcases List.mem_cons.1 mem with rfl | mem
          · simp
          · exact ih mem
        · next near =>
          rcases List.mem_cons.1 mem with rfl | mem
          · refine ⟨by simp, ?_⟩
            rw [List.tail_cons]
            cases g with
            | nil => exact absurd rfl first.1
            | cons u us =>
              rw [List.flatten_cons, List.cons_append] at all
              obtain rfl := (List.cons.inj all).1
              exact List.forall_mem_cons.2 ⟨by simpa using near, first.2⟩
          · exact ih (List.mem_cons_of_mem _ mem)

/-! ### Headers whose comments are read as they are written -/

structure Legible (header : Header) : Prop where
  comments : ∀ text ∈ header.comments, ∃ group, Clump group text ∧ constrains group = false
  buildConstraints : ∀ text ∈ header.buildConstraints,
    Reads .lineComment text [] ∧ Text.trimEnd text = text
  packageDoc : ∀ text ∈ header.packageDoc, ∃ group, Clump group text ∧ constrains group = false

theorem kind_of_isBuildConstraint {t : Token} {rest : Text} (reads : Reads t.kind t.text rest)
    (comment : t.isComment = true) (constraint : isBuildConstraint t.text = true) :
    t.kind = .lineComment := by
  rcases Token.isComment_iff.1 comment with kind | kind
  · exact kind
  · rw [kind] at reads
    obtain ⟨d, body, text, -, read⟩ := ((Token.reads_iff (by simp) _ _).1 reads).1
    obtain ⟨rfl, more, -, eq, -⟩ := Token.scan_eq_blockComment read
    rw [List.append_nil] at eq
    simp [text, eq, isBuildConstraint] at constraint

theorem clump_dropGap {group : List Token} {after : Text} (chained : Chained group after)
    (comments : ∀ c ∈ group, c.isComment = true)
    (kept : ∀ c ∈ group, c.text.getLast? ≠ some '\r') (nonempty : group ≠ [])
    (tight : ∀ c ∈ group.tail, c.gap.hasBlankLine = false) :
    Clump (Token.dropGap group) (Token.spell group) := by
  have alone : Chained group [] := chained.atEnd fun t mem _ => kept t (List.mem_of_getLast? mem)
  refine ⟨⟨Token.written_dropGap group, alone.dropGap⟩, Token.spell_dropGap group, ?_, ?_, ?_⟩
  · cases group with
    | nil => exact absurd rfl nonempty
    | cons c group => simpa [Token.dropGap, Token.isComment] using comments
  · cases group with
    | nil => exact absurd rfl nonempty
    | cons c group => simp [Token.dropGap]
  · cases group with
    | nil => exact absurd rfl nonempty
    | cons c group => exact tight

theorem constrains_dropGap (group : List Token) :
    constrains (Token.dropGap group) = constrains group := by
  cases group <;> rfl

theorem legible_ofGroups {after : Text} {gs : List (List Token)} (attached : Bool)
    (h : Chained gs.flatten after) (comments : ∀ c ∈ gs.flatten, c.isComment = true)
    (kept : ∀ c ∈ gs.flatten, c.text.getLast? ≠ some '\r')
    (tight : ∀ group ∈ gs, group ≠ [] ∧ ∀ c ∈ group.tail, c.gap.hasBlankLine = false) :
    Legible (ofGroups attached gs) := by
  induction gs with
  | nil => exact ⟨by simp [ofGroups, empty], by simp [ofGroups, empty], by simp [ofGroups, empty]⟩
  | cons group others ih =>
    rw [List.flatten_cons] at h comments kept
    obtain ⟨first, rest⟩ := Token.chained_append.1 h
    obtain ⟨tightFirst, tightRest⟩ := List.forall_mem_cons.1 tight
    have these : ∀ c ∈ group, c.isComment = true := fun c mem => comments c (by simp [mem])
    have later := ih rest (fun c mem => comments c (List.mem_append_right _ mem))
      (fun c mem => kept c (List.mem_append_right _ mem)) tightRest
    have whole := clump_dropGap first these (fun c mem => kept c (by simp [mem])) tightFirst.1
      tightFirst.2
    have same := constrains_dropGap group
    rw [ofGroups, addGroup]
    split
    · next all =>
      refine ⟨later.comments, ?_, later.packageDoc⟩
      intro text mem
      rcases List.mem_append.1 mem with mem | mem
      · obtain ⟨t, memT, rfl⟩ := List.mem_map.1 mem
        obtain ⟨behind, reads⟩ := first.reads_of_mem memT
        have kind := kind_of_isBuildConstraint reads (these t memT) (List.all_eq_true.1 all t memT)
        rw [kind] at reads
        exact ⟨(reads.trimEnd (by simp)).2, Text.trimEnd_trimEnd _⟩
      · exact later.buildConstraints text mem
    · next other =>
      have free : constrains (Token.dropGap group) = false := by
        rw [same]
        simpa [constrains] using other
      split
      · refine ⟨later.comments, later.buildConstraints, ?_⟩
        rintro text mem
        obtain rfl := Option.some.inj mem
        exact ⟨_, whole, free⟩
      · refine ⟨?_, later.buildConstraints, later.packageDoc⟩
        intro text mem
        rcases List.mem_cons.1 mem with rfl | mem
        · exact ⟨_, whole, free⟩
        · exact later.comments text mem

theorem legible_readHeader {ts : List Token} {after : Text} (h : Chained ts after)
    (kept : ∀ t ∈ ts, t.isComment = true → t.text.getLast? ≠ some '\r') :
    Legible (SourceFile.readHeader ts) := by
  unfold SourceFile.readHeader
  split
  · exact ⟨by simp [empty], by simp [empty], by simp [empty]⟩
  · have cut := List.takeWhile_append_dropWhile (p := Token.isComment) (l := ts)
    have comments : ∀ c ∈ ts.takeWhile Token.isComment, c.isComment = true :=
      fun c mem => List.all_eq_true.1 List.all_takeWhile c mem
    rw [← cut] at h
    have first := (Token.chained_append.1 h).1
    rw [← groups_flatten (ts.takeWhile Token.isComment)] at first comments
    refine legible_ofGroups _ first comments (fun c mem => ?_)
      fun group mem => tight_of_mem_groups mem
    refine kept c ?_ (comments c mem)
    rw [groups_flatten] at mem
    exact (List.takeWhile_sublist _).subset mem

/-! ### Writing and reading the groups -/

theorem Clump.exists_cons {group : List Token} {text : Text} (h : Clump group text) :
    ∃ c cs, group = c :: cs ∧ c.gap = [] := by
  cases group with
  | nil => exact absurd rfl h.nonempty
  | cons c cs =>
    refine ⟨c, cs, rfl, ?_⟩
    have both := h.fills.text
    rw [← h.spell] at both
    have length := congrArg List.length both
    simp only [Token.written, Token.spell, List.flatMap_cons, List.length_append] at length
    exact List.length_eq_zero_iff.1 (by omega)

theorem isComment_pushGap {gap : Text} {ts : List Token} (h : ∀ c ∈ ts, c.isComment = true) :
    ∀ c ∈ pushGap gap ts, c.isComment = true := by
  cases ts with
  | nil => exact h
  | cons t ts => simpa [pushGap, Token.isComment] using h

/-- Build constraints below each other. -/
theorem exists_clump_of_constraints {texts : List Text} (nonempty : texts ≠ [])
    (h : ∀ text ∈ texts, Reads .lineComment text []) :
    ∃ group, Clump group (Text.joinWith ['\n'] texts) ∧ group.map (·.text) = texts := by
  induction texts with
  | nil => exact absurd rfl nonempty
  | cons text texts ih =>
    obtain ⟨first, others⟩ := List.forall_mem_cons.1 h
    have alone : Fills [⟨.lineComment, [], text, 0⟩] text :=
      ⟨by simp, Token.blank_nil, by simpa using first, trivial⟩
    cases texts with
    | nil =>
      refine ⟨_, ⟨alone, by simp [Token.spell, Text.joinWith], ?_, by simp, by simp⟩, rfl⟩
      simp [Token.isComment]
    | cons next texts =>
      obtain ⟨group, clump, eq⟩ := ih (by simp) others
      obtain ⟨c, cs, rfl, bare⟩ := clump.exists_cons
      have joined : Text.joinWith ['\n'] (text :: next :: texts) =
          text ++ '\n' :: Text.joinWith ['\n'] (next :: texts) := by
        rw [Text.joinWith, List.append_assoc]
        · rfl
        · simp
      have both := alone.append (clump.fills.prepend (by simp) Token.blank_newline)
      rw [joined]
      refine ⟨_, ⟨both, ?_, ?_, by simp, ?_⟩, ?_⟩
      · exact both.text
      · exact List.forall_mem_cons.2 ⟨rfl, isComment_pushGap clump.comments⟩
      · refine List.forall_mem_cons.2 ⟨?_, clump.tight⟩
        rw [bare]
        rfl
      · rw [← eq]
        rfl

/-- Groups below each other, with an empty line between each two. -/
def pile : List (List Token) → List Token
  | [] => []
  | group :: groups => group ++ pushGap ['\n', '\n'] (pile groups)

theorem isComment_pile {gs : List (List Token)} {texts : List Text} (h : Forall₂ Clump gs texts) :
    ∀ c ∈ pile gs, c.isComment = true := by
  induction h with
  | nil => simp [pile]
  | cons clump _ ih =>
    intro c mem
    rcases List.mem_append.1 mem with mem | mem
    · exact clump.comments c mem
    · exact isComment_pushGap ih c mem

theorem ofGroups_pushGap (attached : Bool) (gap : Text) (ts : List Token) :
    ofGroups attached (groups (pushGap gap ts)) = ofGroups attached (groups ts) ∧
      (groups (pushGap gap ts)).isEmpty = (groups ts).isEmpty := by
  cases ts with
  | nil => exact ⟨rfl, rfl⟩
  | cons t ts =>
    cases ts with
    | nil => exact ⟨rfl, rfl⟩
    | cons next others =>
      cases found : groups (next :: others) with
      | nil => exact absurd found (groups_ne_nil next others)
      | cons g gs =>
        rw [pushGap, groups_cons found, groups_cons found]
        split
        · exact ⟨rfl, rfl⟩
        · exact ⟨rfl, rfl⟩

theorem exists_pile_cons {gs : List (List Token)} {texts : List Text} (h : Forall₂ Clump gs texts)
    (nonempty : gs ≠ []) : ∃ c cs, pile gs = c :: cs ∧ c.gap = [] := by
  cases h with
  | nil => exact absurd rfl nonempty
  | cons clump _ =>
    obtain ⟨c, cs, rfl, bare⟩ := clump.exists_cons
    exact ⟨c, _, rfl, bare⟩

/-- The groups of a pile are the groups it is made of. -/
theorem ofGroups_pile {gs : List (List Token)} {texts : List Text} (h : Forall₂ Clump gs texts)
    (attached : Bool) :
    ofGroups attached (groups (pile gs)) = ofGroups attached gs ∧
      (groups (pile gs)).isEmpty = gs.isEmpty := by
  induction h with
  | nil => exact ⟨rfl, rfl⟩
  | @cons group text gs texts clump more ih =>
    have cut : groups (pile (group :: gs)) = group :: groups (pushGap ['\n', '\n'] (pile gs)) := by
      rw [pile]
      by_cases last : gs = []
      · rw [last, pile, pushGap, List.append_nil, groups_singleton clump.nonempty clump.tight]
        rfl
      · obtain ⟨c, cs, eq, bare⟩ := exists_pile_cons more last
        rw [eq, pushGap, groups_append clump.nonempty clump.tight]
        rw [bare]
        rfl
    obtain ⟨same, empty⟩ := ofGroups_pushGap attached ['\n', '\n'] (pile gs)
    refine ⟨?_, by rw [cut]; rfl⟩
    rw [cut, ofGroups, ofGroups, same, empty, ih.1, ih.2]

/-- The pile in front of other tokens. -/
theorem fills_pile {gs : List (List Token)} {texts : List Text} (h : Forall₂ Clump gs texts)
    {us : List Token} {t : Text} (rest : Fills us t) (nonempty : us ≠ []) :
    Fills (pile gs ++ if gs.isEmpty then us else pushGap ['\n', '\n'] us)
      ((texts.flatMap fun text => text ++ ['\n', '\n']) ++ t) := by
  induction h with
  | nil => exact rest
  | @cons group text gs texts clump more ih =>
    have below : Fills (pushGap ['\n', '\n'] (pile gs ++ if gs.isEmpty then us else
        pushGap ['\n', '\n'] us)) (['\n', '\n'] ++
          ((texts.flatMap fun text => text ++ ['\n', '\n']) ++ t)) := by
      refine ih.prepend ?_ Token.blank_emptyLine
      cases us with
      | nil => exact absurd rfl nonempty
      | cons u us => split <;> simp [pushGap]
    have both := clump.fills.append below
    have tokens : pile (group :: gs) ++ pushGap ['\n', '\n'] us =
        group ++ pushGap ['\n', '\n'] (pile gs ++ if gs.isEmpty then us else
          pushGap ['\n', '\n'] us) := by
      by_cases last : gs = []
      · simp [last, pile, pushGap]
      · obtain ⟨c, cs, eq, -⟩ := exists_pile_cons more last
        have filled : gs.isEmpty = false := by simpa using last
        rw [pile, eq, filled]
        simp [pushGap]
    have text' : ((text :: texts).flatMap fun text => text ++ ['\n', '\n']) ++ t =
        text ++ ('\n' :: '\n' :: ((texts.flatMap fun text => text ++ ['\n', '\n']) ++ t)) := by
      simp
    rw [List.isEmpty_cons, if_neg (by simp), tokens, text']
    exact both

theorem pile_concat (gs : List (List Token)) (group : List Token)
    (nonempty : ∀ g ∈ gs, g ≠ []) :
    pile (gs ++ [group]) = pile gs ++ if gs.isEmpty then group else pushGap ['\n', '\n'] group := by
  induction gs with
  | nil => simp [pile, pushGap]
  | cons g gs ih =>
    obtain ⟨-, others⟩ := List.forall_mem_cons.1 nonempty
    rw [List.cons_append, pile, ih others, pile, List.append_assoc]
    cases gs with
    | nil => simp [pile, pushGap]
    | cons g' gs =>
      cases g' with
      | nil => exact absurd rfl (others [] (by simp))
      | cons c g' => simp [pile, pushGap]

/-! ### What is read from the groups -/

/-- The parts of the header that stand on their own. -/
def texts (header : Header) : List Text :=
  header.comments ++
    if header.buildConstraints.isEmpty then [] else [Text.joinWith ['\n'] header.buildConstraints]

theorem ofGroups_append {attached : Bool} {gs rest : List (List Token)}
    (free : ∀ group ∈ gs, constrains group = false) (detached : attached = false ∨ rest ≠ []) :
    (ofGroups attached (gs ++ rest)).texts = gs.map Token.spell ++ (ofGroups attached rest).texts ∧
      (ofGroups attached (gs ++ rest)).packageDoc = (ofGroups attached rest).packageDoc := by
  have whole : ofGroups attached (gs ++ rest) = { ofGroups attached rest with
      comments := gs.map Token.spell ++ (ofGroups attached rest).comments } := by
    induction gs with
    | nil => rfl
    | cons group gs ih =>
      obtain ⟨first, others⟩ := List.forall_mem_cons.1 free
      have notDoc : ((gs ++ rest).isEmpty && attached) = false := by
        rcases detached with rfl | some
        · simp
        · simp [some]
      rw [List.cons_append, ofGroups, ih others, addGroup, notDoc]
      unfold constrains at first
      rw [first]
      simp
  rw [whole]
  exact ⟨by simp [texts], rfl⟩

/-- The groups of constraints and package comment at the end of a header. -/
theorem ofGroups_constraints {attached : Bool} {group : List Token} {constraints : List Text}
    (clump : Clump group (Text.joinWith ['\n'] constraints)) (eq : group.map (·.text) = constraints)
    (trimmed : ∀ text ∈ constraints, Text.trimEnd text = text) {rest : List (List Token)}
    (detached : attached = false ∨ rest ≠ []) (none_left : (ofGroups attached rest).texts = []) :
    (ofGroups attached (group :: rest)).texts = [Text.joinWith ['\n'] constraints] ∧
      (ofGroups attached (group :: rest)).packageDoc = (ofGroups attached rest).packageDoc := by
  have notDoc : (rest.isEmpty && attached) = false := by
    rcases detached with rfl | some
    · simp
    · simp [some]
  obtain ⟨comments, constraints'⟩ : (ofGroups attached rest).comments = [] ∧
      (ofGroups attached rest).buildConstraints = [] := by
    rw [texts, List.append_eq_nil_iff] at none_left
    refine ⟨none_left.1, ?_⟩
    cases found : (ofGroups attached rest).buildConstraints with
    | nil => rfl
    | cons a as => simp [found] at none_left
  have kept : group.map (fun t => Text.trimEnd t.text) = constraints := by
    have both := congrArg (List.map Text.trimEnd) eq
    rw [List.map_map] at both
    refine both.trans ?_
    conv => rhs; rw [← List.map_id constraints]
    exact List.map_congr_left trimmed
  have filled : constraints ≠ [] := by
    rw [← eq]
    simpa using clump.nonempty
  rw [ofGroups, addGroup, notDoc]
  split
  · simp [texts, comments, constraints', kept, filled]
  · simp [texts, comments, constraints', clump.spell]

theorem ofGroups_doc {group : List Token} {doc : Text} (clump : Clump group doc)
    (free : constrains group = false) :
    (ofGroups true [group]).texts = [] ∧ (ofGroups true [group]).packageDoc = some doc := by
  rw [ofGroups, addGroup, ofGroups]
  unfold constrains at free
  rw [free]
  simp [texts, empty, clump.spell]

/-! ### The header as a whole -/

theorem exists_clumps {texts : List Text}
    (h : ∀ text ∈ texts, ∃ group, Clump group text ∧ constrains group = false) :
    ∃ gs, Forall₂ Clump gs texts ∧ ∀ group ∈ gs, constrains group = false := by
  induction texts with
  | nil => exact ⟨[], .nil, by simp⟩
  | cons text texts ih =>
    obtain ⟨⟨group, clump, free⟩, others⟩ := List.forall_mem_cons.1 h
    obtain ⟨gs, clumps, frees⟩ := ih others
    exact ⟨group :: gs, .cons clump clumps, List.forall_mem_cons.2 ⟨free, frees⟩⟩

theorem nonempty_of_clumps {gs : List (List Token)} {texts : List Text}
    (h : Forall₂ Clump gs texts) : ∀ group ∈ gs, group ≠ [] := by
  induction h with
  | nil => simp
  | cons clump _ ih => exact List.forall_mem_cons.2 ⟨clump.nonempty, ih⟩

theorem map_spell_of_clumps {gs : List (List Token)} {texts : List Text}
    (h : Forall₂ Clump gs texts) : gs.map Token.spell = texts := by
  induction h with
  | nil => rfl
  | cons clump _ ih => rw [List.map_cons, clump.spell, ih]

/-- The groups of a header are read as that header, up to what the constraints are. -/
theorem exists_groups {header : Header} (h : Legible header) :
    ∃ gs, Forall₂ Clump gs header.texts ∧
      ((ofGroups false gs).texts = header.texts ∧ (ofGroups false gs).packageDoc = none) ∧
      ∀ {group : List Token} {doc : Text}, Clump group doc → constrains group = false →
        (ofGroups true (gs ++ [group])).texts = header.texts ∧
          (ofGroups true (gs ++ [group])).packageDoc = some doc := by
  obtain ⟨gs, clumps, free⟩ := exists_clumps h.comments
  have spelled := map_spell_of_clumps clumps
  by_cases empty : header.buildConstraints = []
  · have same : header.texts = gs.map Token.spell ++ [] := by simp [texts, empty, spelled]
    refine ⟨gs, by rwa [same, spelled, List.append_nil], ?_, fun {last} {doc} clump free' => ?_⟩
    · have all := @ofGroups_append false gs [] free (.inl rfl)
      rw [List.append_nil] at all
      rw [all.1, all.2, same]
      exact ⟨rfl, rfl⟩
    · obtain ⟨none_left, found⟩ := ofGroups_doc clump free'
      have all := @ofGroups_append true gs [last] free (.inr (by simp))
      rw [all.1, all.2, same, none_left, found]
      exact ⟨rfl, rfl⟩
  · obtain ⟨group, clump, eq⟩ :=
      exists_clump_of_constraints empty fun text mem => (h.buildConstraints text mem).1
    have trimmed := fun text mem => (h.buildConstraints text mem).2
    have same : header.texts = gs.map Token.spell ++
        [Text.joinWith ['\n'] header.buildConstraints] := by
      simp [texts, empty, spelled]
    refine ⟨gs ++ [group], ?_, ?_, fun {last} {doc} clump' free' => ?_⟩
    · rw [same, spelled]
      exact List.rel_append clumps (.cons clump .nil)
    · have all := @ofGroups_append false gs [group] free (.inl rfl)
      have constraints := @ofGroups_constraints false _ _ clump eq trimmed [] (.inl rfl) rfl
      rw [all.1, all.2, same, constraints.1, constraints.2]
      exact ⟨rfl, rfl⟩
    · obtain ⟨none_left, found⟩ := ofGroups_doc clump' free'
      have all := @ofGroups_append true gs [group, last] free (.inr (by simp))
      have constraints := ofGroups_constraints clump eq trimmed (.inr (by simp)) none_left
      rw [List.append_assoc, List.singleton_append, all.1, all.2, same, constraints.1,
        constraints.2, found]
      exact ⟨rfl, rfl⟩

/-- The package comment as it is written. -/
def docText (header : Header) : Text :=
  match header.packageDoc with
  | some doc => doc ++ ['\n']
  | none => []

theorem readHeader_pile {gs : List (List Token)} {texts : List Text} (h : Forall₂ Clump gs texts)
    {next : Token} (bare : next.gap = []) (code : next.isComment = false) (gap : Text)
    (more us : List Token) :
    SourceFile.readHeader (pile gs ++ pushGap gap (next :: us) ++ more) =
      ofGroups (!gap.hasBlankLine) gs := by
  have comments := isComment_pile h
  obtain ⟨next', eq, code', gap'⟩ : ∃ next', pushGap gap (next :: us) = next' :: us ∧
      next'.isComment = false ∧ next'.gap = gap :=
    ⟨_, rfl, code, by rw [bare, List.append_nil]⟩
  rw [eq, List.append_assoc, List.cons_append]
  have left : (pile gs ++ next' :: (us ++ more)).dropWhile Token.isComment =
      next' :: (us ++ more) := by
    rw [List.dropWhile_append_of_pos comments, List.dropWhile_cons_of_neg (by simp [code'])]
  have taken : (pile gs ++ next' :: (us ++ more)).takeWhile Token.isComment = pile gs := by
    rw [List.takeWhile_append_of_pos comments, List.takeWhile_cons_of_neg (by simp [code']),
      List.append_nil]
  rw [SourceFile.readHeader, left]
  simp only [taken, ofComments, gap']
  exact (ofGroups_pile h _).1

/-- The tokens of a header, and what is read from them. -/
theorem exists_fills_header {header : Header} (h : Legible header) {keyword : Token}
    {us : List Token} {t : Text} (rest : Fills (keyword :: us) t) (bare : keyword.gap = [])
    (code : keyword.isComment = false) :
    ∃ cs gap, (∀ c ∈ cs, c.isComment = true) ∧
      Fills (cs ++ pushGap gap (keyword :: us))
        ((header.texts.flatMap fun text => text ++ ['\n', '\n']) ++ (header.docText ++ t)) ∧
      ∀ more, (SourceFile.readHeader (cs ++ pushGap gap (keyword :: us) ++ more)).texts =
        header.texts ∧
        (SourceFile.readHeader (cs ++ pushGap gap (keyword :: us) ++ more)).packageDoc =
          header.packageDoc := by
  obtain ⟨gs, clumps, alone, documented⟩ := exists_groups h
  unfold docText
  cases found : header.packageDoc with
  | none =>
    have fills := fills_pile clumps rest (by simp)
    by_cases empty : gs = []
    · -- Without groups it does not matter how far the clause is away.
      refine ⟨pile gs, [], isComment_pile clumps,
        by simpa [empty, pushGap] using fills, fun more => ?_⟩
      rw [readHeader_pile clumps bare code]
      rw [empty] at alone ⊢
      exact alone
    · refine ⟨pile gs, ['\n', '\n'], isComment_pile clumps,
        by simpa [empty] using fills, fun more => ?_⟩
      rw [readHeader_pile clumps bare code]
      exact alone
  | some doc =>
    obtain ⟨group, clump, free⟩ := h.packageDoc doc found
    have clause := clump.fills.append (rest.prepend (by simp) Token.blank_newline)
    have fills := fills_pile clumps clause (by simp [clump.nonempty])
    have clumps' : Forall₂ Clump (gs ++ [group]) (header.texts ++ [doc]) :=
      List.rel_append clumps (.cons clump .nil)
    refine ⟨pile (gs ++ [group]), ['\n'], isComment_pile clumps', ?_, fun more => ?_⟩
    · obtain ⟨c, cs, rfl, -⟩ := clump.exists_cons
      rw [pile_concat gs _ (nonempty_of_clumps clumps)]
      by_cases empty : gs = [] <;> simpa [empty, pushGap] using fills
    · rw [readHeader_pile clumps' bare code]
      exact documented clump free

end Header

end GoSplit
