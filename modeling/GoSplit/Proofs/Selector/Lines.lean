import GoSplit.Proofs.Selector.Repeated
import GoSplit.Proofs.SourceFile.Accounting

/-!
Declarations below each other. What a draft writes is read as the tokens of its declarations,
each of which starts a line, so the packages its text uses are those of the declarations read
in this way.
-/

namespace GoSplit

open List (Forall₂)
open SourceFile (StartsLine)
open Token (Akin Chained Covers InPlace Layout Moved Same dropGap pushGap withoutComments)

namespace Token

/-! ### Without comments, in other places -/

theorem same_symm {ts us : List Token} (h : Forall₂ Same ts us) : Forall₂ Same us ts :=
  h.flip.imp fun _ _ same => ⟨same.kind.symm, same.gap.symm, same.text.symm⟩

theorem Moved.symm {ts us : List Token} (h : Moved ts us) : Moved us ts := by
  cases h with
  | nil => exact .nil
  | cons kind text more => exact .cons kind.symm text.symm (same_symm more)

theorem moved_of_dropGap {ts us : List Token} (h : dropGap ts = dropGap us) : Moved ts us := by
  match ts, us with
  | [], [] => exact .nil
  | t :: ts, u :: us =>
    obtain ⟨first, rfl⟩ := List.cons.inj h
    exact .cons (Token.mk.inj first).1 (Token.mk.inj first).2.2.1 (List.forall₂_refl _)

/-- What is held back for the first token comes in front of it. -/
theorem go_eq_pushGap (before : Text) (ts : List Token) :
    withoutComments.go before ts = pushGap before (withoutComments ts) := by
  have held : ∀ (front before : Text) (ts : List Token),
      withoutComments.go (front ++ before) ts = pushGap front (withoutComments.go before ts) := by
    intro front before ts
    induction ts generalizing before with
    | nil => rfl
    | cons t ts ih =>
      rw [withoutComments.go, withoutComments.go]
      split
      · rw [← ih, List.append_assoc, List.append_assoc, List.append_assoc]
      · simp [pushGap]
  rw [withoutComments, ← held, List.append_nil]

theorem same_go {ts us : List Token} (h : Forall₂ Same ts us) (before : Text) :
    Forall₂ Same (withoutComments.go before ts) (withoutComments.go before us) := by
  induction h generalizing before with
  | nil => exact .nil
  | cons same _ ih =>
    rw [withoutComments.go, withoutComments.go, isComment_eq_of_kind same.kind, same.gap, same.text]
    split
    · exact ih _
    · exact .cons ⟨same.kind, rfl, rfl⟩ (ih _)

theorem Moved.withoutComments {ts us : List Token} (h : Moved ts us) :
    Moved (withoutComments ts) (withoutComments us) := by
  cases h with
  | nil => exact .nil
  | @cons t u ts us kind text more =>
    rw [Token.withoutComments, Token.withoutComments, withoutComments.go, withoutComments.go,
      isComment_eq_of_kind kind]
    split
    · rw [go_eq_pushGap, go_eq_pushGap]
      have rest := same_go more []
      exact ((Moved.pushGap _ _).trans (.of_same rest)).trans (Moved.pushGap _ _).symm
    · exact .cons kind text (same_go more [])

theorem Moved.akin {ts us : List Token} (h : Moved ts us) (left : StartsLine ts)
    (right : StartsLine us) : Forall₂ Akin ts us := by
  have tight : ∀ {t : Token}, t.onNewLine = true → t.gap.isEmpty = false := by
    intro t line
    cases gap : t.gap with
    | nil => simp [onNewLine, gap, Text.hasNewline] at line
    | cons c cs => rfl
  cases h with
  | nil => exact .nil
  | @cons t u ts us kind text more =>
    have line : t.onNewLine = true := left t rfl
    have line' : u.onNewLine = true := right u rfl
    refine .cons ⟨kind, text, line.trans line'.symm, (tight line).trans (tight line').symm⟩ ?_
    exact more.imp fun _ _ same => ⟨same.kind, same.text, same.alike.onNewLine_eq, by rw [same.gap]⟩

theorem startsLine_go {ts : List Token} (starts : StartsLine ts) (before : Text) :
    StartsLine (withoutComments.go before ts) := by
  refine onNewLine_go (.inr ?_)
  cases ts with
  | nil => rfl
  | cons t ts => simp [breaksBeforeNext, starts t rfl]

theorem startsLine_newline (ts : List Token) : StartsLine (pushGap ['\n'] ts) := by
  cases ts with
  | nil => simp [StartsLine, pushGap]
  | cons t ts =>
    intro u mem
    obtain rfl := Option.some.inj mem
    simp [onNewLine, Text.hasNewline]

/-- A layout of groups reads like other groups of the same tokens, each on a line of its own. -/
theorem Layout.akin {groups runs : List (List Token)} {us : List Token} (layout : Layout groups us)
    (same : Forall₂ (fun group run => Moved (withoutComments group) (withoutComments run))
      groups runs)
    (before before' : Text) :
    Forall₂ Akin (withoutComments.go before us)
      (withoutComments.go before' (runs.flatMap (pushGap ['\n']))) := by
  induction layout generalizing runs before before' with
  | nil =>
    cases same
    exact .nil
  | cons moved starts _ ih =>
    cases same with
    | @cons _ run _ runs here more =>
      rw [List.flatMap_cons, go_append, go_append]
      refine List.rel_append ?_ (ih more _ _)
      refine Moved.akin ?_ (startsLine_go starts _) (startsLine_go (startsLine_newline run) _)
      rw [go_eq_pushGap, go_eq_pushGap]
      have front := (Moved.pushGap before _).trans (moved.withoutComments.trans here)
      have back := (Moved.pushGap ['\n'] run).withoutComments
      exact front.trans ((Moved.pushGap before' _).trans back).symm

/-- A text holds one list of tokens. -/
theorem Covers.same {ts us : List Token} {s : Text} (h : Covers ts s) (h' : Covers us s) :
    Forall₂ Same ts us := by
  have place : place 0 ts = place 0 us := Except.ok.inj (h.tokenize.symm.trans h'.tokenize)
  have left := same_symm (forall₂_place 0 ts)
  rw [place] at left
  exact same_trans left (forall₂_place 0 us)

theorem starts_pushGap (gap : Text) (ts : List Token) :
    ((pushGap gap ts).filter fun t => !t.isComment).map start =
      (ts.filter fun t => !t.isComment).map start := by
  cases ts with
  | nil => rfl
  | cons t ts =>
    have comment : ({ t with gap := gap ++ t.gap } : Token).isComment = t.isComment := rfl
    rw [pushGap, List.filter_cons, List.filter_cons, comment]
    split <;> rfl

end Token

/-- White space in front of code does not matter. -/
theorem Selector.packageSelectors_pushGap (gap : Text) (ts : List Token) :
    packageSelectors (withoutComments (pushGap gap ts)) =
      packageSelectors (withoutComments ts) := by
  have same : dropGap (pushGap gap ts) = dropGap ts := by cases ts <;> rfl
  rw [← packageSelectors_dropGap, ← Token.dropGap_withoutComments, same,
    Token.dropGap_withoutComments, packageSelectors_dropGap]

namespace Decl

/-- The tokens of declarations without comments, where each declaration starts a line. -/
def lines (ds : List Decl) : List Token :=
  withoutComments (ds.flatMap fun d => pushGap ['\n'] d.tokens)

theorem starts_lines (ds : List Decl) :
    (lines ds).map Token.start = (withoutComments (ds.flatMap Decl.tokens)).map Token.start := by
  rw [lines, withoutComments, withoutComments, Token.go_starts, Token.go_starts]
  induction ds with
  | nil => rfl
  | cons d ds ih =>
    rw [List.flatMap_cons, List.flatMap_cons, List.filter_append, List.filter_append,
      List.map_append, List.map_append, ih, Token.starts_pushGap]

/-- Where every declaration but the first starts a line anyway, nothing is different. -/
theorem packageSelectors_lines {ds : List Decl} (starts : ∀ d ∈ ds.tail, StartsLine d.tokens)
    (distinct : ((withoutComments (ds.flatMap Decl.tokens)).map Token.start).Nodup) :
    packageSelectors (lines ds) = packageSelectors (withoutComments (ds.flatMap Decl.tokens)) := by
  have layout : ∀ {ds : List Decl}, (∀ d ∈ ds, StartsLine d.tokens) →
      Layout (ds.map Decl.tokens) (ds.flatMap Decl.tokens) := by
    intro ds
    induction ds with
    | nil => exact fun _ => .nil
    | cons d ds ih =>
      intro starts
      obtain ⟨first, rest⟩ := List.forall_mem_cons.1 starts
      exact .cons (.of_same (List.forall₂_refl _)) first (ih rest)
  have self : ∀ runs : List (List Token),
      Forall₂ (fun group run => Moved (withoutComments group) (withoutComments run)) runs runs :=
    fun _ => List.forall₂_same.2 fun _ _ => .of_same (List.forall₂_refl _)
  cases ds with
  | nil => rfl
  | cons d ds =>
    -- White space in front of the first declaration is nothing to the selectors.
    have front : pushGap ['\n'] d.tokens ++ ds.flatMap Decl.tokens =
        pushGap ['\n'] ((d :: ds).flatMap Decl.tokens) := by
      rw [List.flatMap_cons]
      cases tokens : d.tokens with
      | nil => simp [Decl.tokens] at tokens
      | cons t ts => rfl
    have akin := (Layout.cons (Moved.pushGap ['\n'] d.tokens) (Token.startsLine_newline _)
      (layout starts)).akin (self ((d :: ds).map Decl.tokens)) [] []
    rw [List.flatMap_map, List.tail_cons, front] at akin
    have distinct' : ((withoutComments (pushGap ['\n'] ((d :: ds).flatMap Decl.tokens))).map
        Token.start).Nodup := by
      rw [withoutComments, Token.go_starts] at distinct ⊢
      rwa [Token.starts_pushGap]
    rw [← Selector.packageSelectors_pushGap ['\n']]
    refine (packageSelectors_akin akin distinct' ?_).symm
    rwa [← starts_lines] at distinct

/-- The code of a text that a complete declaration is printed as. -/
theorem moved_code {d : Decl} {group : List Token} {after : Text} (chained : Chained d.tokens after)
    (placed : InPlace d.tokens) (complete : d.isComplete = true)
    (covers : Covers group (Text.trimEnd d.text)) :
    Moved (withoutComments group) (withoutComments d.tokens) := by
  obtain ⟨us, -, covers', same⟩ :=
    chained.exists_trimmed placed (Draft.kind_ne_op_of_isComplete complete)
  exact ((Moved.of_same (covers.same covers')).withoutComments).trans (Token.moved_of_dropGap same)

end Decl

namespace Draft

/-- The packages that a draft's text uses are those of its declarations below each other. -/
theorem Read.usedPackages_eq {draft : Draft} {ds : List Decl} {file : SourceFile}
    (read : draft.Read ds file) {text : Text} (parsed : SourceFile.ofSource text = .ok file)
    (placed : ∀ d ∈ ds, InPlace d.tokens ∧ ∃ after, Chained d.tokens after)
    (complete : ∀ d ∈ ds, d.isComplete = true)
    (distinct : ((Decl.lines ds).map Token.start).Nodup) :
    file.usedPackages = packageSelectors (Decl.lines ds) := by
  obtain ⟨front, last, groups, us, cut, stop, layout, covers⟩ := read.behind
  have tokens := SourceFile.tokens_of_parsed parsed
  have behind : file.tokens.filter (fun t => decide (file.bodyStart ≤ t.start)) = us := by
    obtain ⟨tail, -, chained, -, placed⟩ := Token.tokenize_eq_ok_iff.1 tokens
    have ordered := Token.pairwise_place 0 file.tokens
    rw [placed, cut] at ordered
    rw [← stop, cut]
    refine SourceFile.filter_behind ordered fun t mem => chained.start_lt_stop ?_
    rw [cut, List.append_cons]
    exact List.mem_append_left us mem
  have moved : Forall₂ (fun group run => Moved (withoutComments group) (withoutComments run))
      groups (ds.map Decl.tokens) := by
    refine List.forall₂_map_right_iff.2 ((Token.forall₂_and_mem covers).imp fun group d both => ?_)
    obtain ⟨inPlace, after, chained⟩ := placed d both.1
    exact Decl.moved_code chained inPlace (complete d both.1) both.2
  have akin := layout.akin moved [] []
  rw [List.flatMap_map] at akin
  have distinct' := SourceFile.nodup_starts tokens
    (List.filter_sublist (p := fun t => decide (file.bodyStart ≤ t.start)))
  rw [SourceFile.usedPackages, behind]
  rw [behind] at distinct'
  exact packageSelectors_akin akin distinct' distinct

end Draft

end GoSplit
