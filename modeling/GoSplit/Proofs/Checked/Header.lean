import GoSplit.Proofs.Checked.Extents
import Mathlib.Data.List.Induction

/-!
The comments in front of the package clause, found by index. A group is known by the indices of
its first and its last comment until its text is cut out of the source.
-/

namespace GoSplit

namespace Header

/-- The header of some groups and of those behind them. -/
def followedBy (first later : Header) : Header :=
  ⟨first.comments ++ later.comments, first.buildConstraints ++ later.buildConstraints,
    later.packageDoc.or first.packageDoc⟩

theorem empty_followedBy (header : Header) : empty.followedBy header = header := by
  simp [followedBy, empty]

theorem followedBy_assoc (a b c : Header) :
    (a.followedBy b).followedBy c = a.followedBy (b.followedBy c) := by
  simp [followedBy, Option.or_assoc]

theorem ofGroups_cons (attached : Bool) (group : List Token) (others : List (List Token)) :
    ofGroups attached (group :: others) =
      (addGroup attached group others.isEmpty empty).followedBy (ofGroups attached others) := by
  rw [ofGroups, addGroup, addGroup]
  cases others with
  | nil => split_ifs <;> simp [followedBy, ofGroups, empty]
  | cons next others => split_ifs <;> simp_all [followedBy, empty]

end Header

namespace Checked.Reading

open Token (written)

variable {ε : Type}

/-- As many tokens as wanted, from an index on. -/
def tokens (r : Reading) (start count : Nat) : Checked ε (List Token) :=
  (List.range' start count).mapM r.token

/-- A comment joins the group in front of it or starts a new one. The last group comes first. -/
def groupTurn (r : Reading) (groups : List (Nat × Nat)) (i : Nat) : Checked ε (List (Nat × Nat)) :=
  match groups with
  | [] => pure [(i, i)]
  | (first, last) :: others => do
    if ← r.blankLineBetween (← r.token last).stop (← r.token i).start then
      return (i, i) :: (first, last) :: others
    else return (first, i) :: others

/-- The groups of the comments in front of an index. -/
def commentGroups (r : Reading) (stop : Nat) : Checked ε (List (Nat × Nat)) := do
  return (← (List.range stop).foldlM r.groupTurn []).reverse

/-- Whether a group that ends at the byte `stop` belongs to the token at the byte `next`: it is the
last one, and no empty line lies between. -/
def attaches (r : Reading) (next stop : Nat) (isLast : Bool) : Checked ε Bool := do
  if isLast then return !(← r.blankLineBetween stop next) else return false

/-- Adds a group, which is the `n`th of `count`, to the header; the token behind all of them starts
at the byte `next`. -/
def addGroup (r : Reading) (next count : Nat) (header : Header) (first last n : Nat) :
    Checked ε Header := do
  let opening ← r.token first
  let final ← r.token last
  let text ← slice r.src opening.start final.stop
  let lines ← r.tokens first (last + 1 - first)
  if lines.all fun t => Header.isBuildConstraint t.text then
    return { header with
      buildConstraints := header.buildConstraints ++ lines.map fun t => t.text.trimEnd }
  else
    if ← r.attaches next final.stop (n + 1 == count)
      then return { header with packageDoc := some text }
    else return { header with comments := header.comments ++ [text] }

/-- The header made of the comments in front of an index. -/
def buildHeader (r : Reading) (stop : Nat) : Checked ε Header := do
  let groups ← r.commentGroups stop
  let next := ((← r.token? stop).map (·.start)).getD r.src.byteLength
  groups.zipIdx.foldlM
    (fun header group => r.addGroup next groups.length header group.1.1 group.1.2 group.2)
    Header.empty

/-- The first and last index of each group, when the first one starts at an index. -/
def groupEnds (start : Nat) : List (List Token) → List (Nat × Nat)
  | [] => []
  | group :: others =>
    (start, start + (group.length - 1)) :: groupEnds (start + group.length) others

theorem length_groupEnds (start : Nat) (gs : List (List Token)) :
    (groupEnds start gs).length = gs.length := by
  induction gs generalizing start with
  | nil => rfl
  | cons group gs ih => simp [groupEnds, ih]

/-- The package clause at an index, and the index behind it and the comments on its line. -/
def packageClause (r : Reading) (index : Nat) : Checked ParseFault (PackageClause × Nat) := do
  match ← r.token? index with
  | none => throw ⟨.missingPackageClause, r.src.byteLength⟩
  | some keyword =>
    if keyword.isWord "package" then
      let place ← r.skipComments (index + 1)
      match ← r.token? place with
      | none => throw ⟨.missingPackageClause, keyword.start⟩
      | some name =>
        if name.isName then
          let (_, next) ← r.absorbTrailing ⟨place + 1, place + 1⟩
          return (⟨name.text, keyword.start, name.stop⟩, next)
        else throw ⟨.unexpectedToken name.text .packageName, name.start⟩
    else throw ⟨.missingPackageClause, keyword.start⟩

namespace Of

variable {r : Reading} {before : Text} {toks front run rest cs : List Token} {t : Token}

theorem tokens_eq (h : r.Of before toks) (cut : toks = front ++ (run ++ rest)) :
    (r.tokens front.length run.length : Checked ε (List Token)) = pure (run.map bare) := by
  rw [tokens]
  induction run generalizing front with
  | nil => rfl
  | cons t run ih =>
    have next := @ih (front ++ [t]) (by simp [cut])
    rw [List.length_append, List.length_singleton] at next
    rw [List.length_cons, List.range'_succ, List.mapM_cons, h.token_eq cut, pure_bind, next,
      pure_bind]
    rfl

/-- The blank line in front of a comment decides whether it joins the group that ends there. -/
theorem groupTurn_eq (h : r.Of before toks) {p : Token} (cut : toks = front ++ p :: t :: rest)
    (first : Nat) (others : List (Nat × Nat)) :
    (r.groupTurn ((first, front.length) :: others) (front.length + 1) : Checked ε _) =
      if t.gap.hasBlankLine then
        pure ((front.length + 1, front.length + 1) :: (first, front.length) :: others)
      else pure ((first, front.length + 1) :: others) := by
  have here := @token_eq ε r before toks (front ++ [p]) rest t h (by simp [cut])
  rw [List.length_append, List.length_singleton] at here
  have between := @slice_between ε r before toks front [] rest t p h cut
  rw [Token.written_nil, List.nil_append] at between
  simp only [groupTurn, h.token_eq cut, here, pure_bind, bare_stop, bare_start,
    blankLineBetween, between]

/-- Comments behind the token `p`, which ends the group that starts at `first`. -/
theorem foldlM_groupTurn (h : r.Of before toks) {p : Token}
    (cut : toks = front ++ p :: (cs ++ rest)) (first : Nat) (done : List (Nat × Nat)) :
    ∃ run others, Header.groups (p :: cs) = (p :: run) :: others ∧
      ((List.range' (front.length + 1) cs.length).foldlM r.groupTurn
        ((first, front.length) :: done) : Checked ε _) =
        pure ((groupEnds (front.length + run.length + 1) others).reverse ++
          (first, front.length + run.length) :: done) := by
  induction cs generalizing front p first done with
  | nil => exact ⟨[], [], rfl, rfl⟩
  | cons c cs ih =>
    have behind : toks = (front ++ [p]) ++ c :: (cs ++ rest) := by simp [cut]
    rw [List.length_cons, List.range'_succ, List.foldlM_cons, h.groupTurn_eq cut]
    cases apart : c.gap.hasBlankLine with
    | true =>
      obtain ⟨run, others, found, rest⟩ :=
        ih behind (front.length + 1) ((first, front.length) :: done)
      refine ⟨[], (c :: run) :: others, by rw [Header.groups_cons found, apart]; rfl, ?_⟩
      rw [List.length_append, List.length_singleton] at rest
      rw [if_pos rfl, pure_bind, rest]
      simp [groupEnds, Nat.add_assoc]
    | false =>
      obtain ⟨run, others, found, rest⟩ := ih behind first done
      refine ⟨c :: run, others, by rw [Header.groups_cons found, apart]; rfl, ?_⟩
      rw [List.length_append, List.length_singleton] at rest
      have reached : front.length + 1 + run.length = front.length + (c :: run).length := by
        rw [List.length_cons]
        omega
      rw [if_neg Bool.false_ne_true, pure_bind, rest, reached]

theorem commentGroups_eq (h : r.Of [] toks) (cut : toks = cs ++ rest) :
    (r.commentGroups cs.length : Checked ε _) = pure (groupEnds 0 (Header.groups cs)) := by
  rw [commentGroups, List.range_eq_range']
  cases cs with
  | nil => rfl
  | cons c cs =>
    obtain ⟨run, others, found, folded⟩ := @foldlM_groupTurn ε r [] toks [] rest cs h c cut 0 []
    rw [List.length_cons, List.range'_succ, List.foldlM_cons, groupTurn, pure_bind, found]
    simp only [List.length_nil, Nat.zero_add] at folded
    rw [folded]
    simp [groupEnds]

/-- What is cut out for a group, and where it goes. -/
theorem addGroup_eq (h : r.Of before toks) (cut : toks = front ++ (t :: run ++ rest)) {next : Nat}
    {apart : Bool} {count n : Nat} (clause : n + 1 = count →
      (r.blankLineBetween ((t :: run).getLastD t).stop next : Checked ε Bool) = pure apart)
    (header : Header) :
    (r.addGroup next count header front.length (front.length + run.length) n : Checked ε Header) =
      pure (header.followedBy (Header.addGroup (!apart) (t :: run) (n + 1 == count)
        Header.empty)) := by
  obtain ⟨init, last, ends⟩ : ∃ init last, t :: run = init ++ [last] :=
    ⟨_, _, (List.dropLast_append_getLast (List.cons_ne_nil t run)).symm⟩
  have size : init.length = run.length := by simpa using (congrArg List.length ends).symm
  have isLast : (t :: run).getLastD t = last := by rw [ends]; simp
  have opening := @token_eq ε r before toks front (run ++ rest) t h cut
  have final := @token_eq ε r before toks (front ++ init) rest last h (by rw [cut, ends]; simp)
  have lines := @tokens_eq ε r before toks front (t :: run) rest h cut
  have text := @slice_run ε r before toks front rest run t h cut
  have counted : front.length + run.length + 1 - front.length = (t :: run).length := by
    rw [List.length_cons]
    omega
  rw [List.length_append, size] at final
  rw [isLast] at clause text
  simp only [addGroup, opening, final, pure_bind, bare_start, bare_stop, text, counted, lines,
    attaches, Header.addGroup]
  have same : ((t :: run).map bare).all (fun t => Header.isBuildConstraint t.text) =
      (t :: run).all fun t => Header.isBuildConstraint t.text := by
    rw [List.all_map]
    rfl
  have trimmed : ((t :: run).map bare).map (fun t => t.text.trimEnd) =
      (t :: run).map fun t => t.text.trimEnd := by
    rw [List.map_map]
    rfl
  rw [same, trimmed]
  by_cases constraints : (t :: run).all (fun t => Header.isBuildConstraint t.text) = true
  · simp [constraints, Header.followedBy, Header.empty]
  · rw [Bool.not_eq_true] at constraints
    by_cases final : n + 1 = count
    · cases apart <;> simp [constraints, final, clause final, Header.followedBy, Header.empty]
    · simp [constraints, final, Header.followedBy, Header.empty]

theorem foldlM_addGroup (h : r.Of before toks) {next : Nat} {apart : Bool} {gs : List (List Token)}
    (full : ∀ group ∈ gs, group ≠ []) (cut : toks = front ++ (gs.flatten ++ rest))
    (clause : ∀ t ∈ gs.flatten.getLast?, (r.blankLineBetween t.stop next : Checked ε Bool) =
      pure apart)
    {count n : Nat} (counted : n + gs.length = count) (header : Header) :
    (((groupEnds front.length gs).zipIdx n).foldlM (fun header group =>
        r.addGroup next count header group.1.1 group.1.2 group.2) header : Checked ε Header) =
      pure (header.followedBy (Header.ofGroups (!apart) gs)) := by
  induction gs generalizing front n header with
  | nil => simp [groupEnds, Header.ofGroups, Header.followedBy, Header.empty]
  | cons group others ih =>
    obtain ⟨t, run, rfl⟩ := List.exists_cons_of_ne_nil (full group (List.mem_cons_self ..))
    have here : toks = front ++ (t :: run ++ (others.flatten ++ rest)) := by simp [cut]
    have final : n + 1 = count → others = [] := by
      intro final
      rw [← counted, List.length_cons] at final
      exact List.length_eq_zero_iff.1 (by omega)
    have added := h.addGroup_eq here
      (fun last : n + 1 = count => clause _ (by simp [final last, List.getLast?_cons])) header
    have others' : toks = (front ++ t :: run) ++ (others.flatten ++ rest) := by simp [cut]
    have later := ih (fun group mem => full group (List.mem_cons_of_mem _ mem)) others'
      (fun u mem => clause u (by rw [List.flatten_cons, List.getLast?_append, mem]; rfl))
      (by rw [← counted, List.length_cons]; omega : n + 1 + others.length = count)
      (header.followedBy (Header.addGroup (!apart) (t :: run) (n + 1 == count) Header.empty))
    have isLast : (n + 1 == count) = others.isEmpty := by
      rw [← counted, List.length_cons]
      cases others <;> simp
    rw [groupEnds, List.zipIdx_cons, List.foldlM_cons]
    simp only [List.length_cons, Nat.add_sub_cancel, added, pure_bind]
    rw [List.length_append, List.length_cons] at later
    rw [later, Header.followedBy_assoc, isLast, Header.ofGroups_cons]

theorem ne_nil_of_mem_groups {group : List Token} (mem : group ∈ Header.groups cs) :
    group ≠ [] := by
  induction cs generalizing group with
  | nil => cases mem
  | cons t cs ih =>
    cases cs with
    | nil =>
      obtain rfl : group = [t] := by simpa [Header.groups] using mem
      exact List.cons_ne_nil _ _
    | cons u us =>
      cases found : Header.groups (u :: us) with
      | nil =>
        have flat := Header.groups_flatten (u :: us)
        simp [found] at flat
      | cons g others =>
        rw [Header.groups_cons found] at mem
        have known : ∀ group ∈ others, group ≠ [] := fun group mem => ih (by simp [found, mem])
        split_ifs at mem
        · rcases List.mem_cons.1 mem with rfl | mem
          · exact List.cons_ne_nil _ _
          · exact ih (by rwa [found])
        · rcases List.mem_cons.1 mem with rfl | mem
          · exact List.cons_ne_nil _ _
          · exact known group mem

/-- What follows the last of the comments, up to the end of the source if no token does. -/
theorem exists_slice_behind (h : r.Of before toks) (cut : toks = front ++ t :: rest) :
    ∃ gap, (∀ u ∈ rest.head?, gap = u.gap) ∧
      (slice r.src t.stop ((rest.head?.map (·.start)).getD r.src.byteLength) : Checked ε Text) =
        pure gap := by
  cases rest with
  | nil =>
    obtain ⟨tail, whole⟩ := h.whole
    refine ⟨tail, by simp,
      slice_of_slice? (Text.slice?_eq_some_iff.2 ⟨before ++ written toks, [], ?_, ?_⟩)⟩
    · simp [whole]
    · rw [h.stop_eq cut, cut, whole]
      simp [cut, Nat.add_assoc]
  | cons u rest =>
    have between := @slice_between ε r before toks front [] rest u t h cut
    exact ⟨u.gap, by simp, by simpa using between⟩

theorem buildHeader_eq (h : r.Of [] toks) (cut : toks = cs ++ rest) :
    ∃ apart, (∀ next ∈ rest.head?, apart = next.gap.hasBlankLine) ∧
      (r.buildHeader cs.length : Checked ε Header) =
        pure (Header.ofGroups (!apart) (Header.groups cs)) := by
  have flat := Header.groups_flatten cs
  have next := @token?_eq ε r [] toks cs rest h cut
  obtain ⟨apart, same, clause⟩ : ∃ apart, (∀ next ∈ rest.head?, apart = next.gap.hasBlankLine) ∧
      ∀ t ∈ cs.getLast?, (r.blankLineBetween t.stop
        ((rest.head?.map (·.start)).getD r.src.byteLength) : Checked ε Bool) = pure apart := by
    rcases List.eq_nil_or_concat cs with rfl | ⟨init, last, rfl⟩
    · exact ⟨(rest.head?.map fun next => next.gap.hasBlankLine).getD false,
        fun next mem => by rw [Option.mem_def.1 mem]; rfl, fun t mem => by cases mem⟩
    · obtain ⟨gap, same, sliced⟩ := @exists_slice_behind ε r [] toks init rest last h
        (by simp [cut])
      refine ⟨gap.hasBlankLine, fun next mem => by rw [same next mem], fun t mem => ?_⟩
      obtain rfl : last = t := by simpa using mem
      rw [blankLineBetween, sliced, pure_bind]
  refine ⟨apart, same, ?_⟩
  have added := @foldlM_addGroup ε r [] toks [] rest h
    ((rest.head?.map (·.start)).getD r.src.byteLength) apart
    (Header.groups cs) (fun group => ne_nil_of_mem_groups) (by rw [flat, cut, List.nil_append])
    (by rwa [flat]) (Header.groups cs).length 0 (Nat.zero_add _) Header.empty
  have starts : (rest.head?.map bare).map (·.start) = rest.head?.map (·.start) := Option.map_map ..
  rw [buildHeader, h.commentGroups_eq cut, pure_bind, next, pure_bind, starts, length_groupEnds]
  rwa [Header.empty_followedBy] at added

theorem packageClause_eq (h : r.Of before toks) (cut : toks = front ++ rest) :
    (∃ fault, SourceFile.readPackage r.src.byteLength rest = .error fault ∧
      r.packageClause front.length = throw fault) ∨
    ∃ clause mid later, rest = mid ++ later ∧
      SourceFile.readPackage r.src.byteLength rest = .ok (clause, later) ∧
      r.packageClause front.length = pure (clause, (front ++ mid).length) := by
  have first := @token?_eq ParseFault r before toks front rest h cut
  cases rest with
  | nil =>
    refine .inl ⟨⟨.missingPackageClause, r.src.byteLength⟩, rfl, ?_⟩
    rw [packageClause, first]
    rfl
  | cons keyword rest =>
    simp only [packageClause, first, pure_bind, List.head?_cons, Option.map_some]
    rw [bare_isWord, SourceFile.readPackage]
    by_cases word : keyword.isWord "package" = true
    · have behind : toks = (front ++ [keyword]) ++ rest := by simp [cut]
      have skipped := @skipComments_eq ParseFault r before toks (front ++ [keyword]) rest h behind
      have split := (List.takeWhile_append_dropWhile (p := Token.isComment) (l := rest)).symm
      generalize rest.takeWhile Token.isComment = comments at split skipped
      generalize rest.dropWhile Token.isComment = code at split
      subst split
      have there : toks = (front ++ keyword :: comments) ++ code := by simp [cut]
      have place : (front ++ [keyword]).length + comments.length =
          (front ++ keyword :: comments).length := by
        simp only [List.length_append, List.length_cons, List.length_nil]
        omega
      have second := @token?_eq ParseFault r before toks _ _ h there
      rw [place, List.length_append, List.length_singleton] at skipped
      rw [if_pos word, if_pos word, skipped, pure_bind, second, pure_bind]
      cases code with
      | nil => exact .inl ⟨_, rfl, rfl⟩
      | cons name after =>
        simp only [List.head?_cons, Option.map_some]
        rw [bare_isName]
        by_cases isName : name.isName = true
        · have absorbed := @absorbTrailing_eq ParseFault r before toks _ [] after name h there false
            (by simp)
          have closing : SourceFile.Item.close false [] after =
              (SourceFile.sameLineComments after, []) := rfl
          simp only [closing, List.length_nil, Nat.add_zero, Bool.false_eq_true,
            if_false] at absorbed
          rw [if_pos isName, if_pos isName, absorbed, pure_bind]
          refine .inr ⟨_, keyword :: (comments ++ name :: SourceFile.sameLineComments after),
            after.drop (SourceFile.sameLineComments after).length, ?_, rfl, ?_⟩
          · simp [SourceFile.sameLineComments_append_drop]
          · have reached : (front ++ keyword :: comments).length + 1 +
                (SourceFile.sameLineComments after).length =
                (front ++ keyword ::
                  (comments ++ name :: SourceFile.sameLineComments after)).length := by
              simp only [List.length_append, List.length_cons]
              omega
            rw [reached]
            rfl
        · rw [if_neg isName, if_neg isName]
          exact .inl ⟨_, rfl, rfl⟩
    · rw [if_neg word, if_neg word]
      exact .inl ⟨_, rfl, rfl⟩

end Of

end Checked.Reading

end GoSplit
