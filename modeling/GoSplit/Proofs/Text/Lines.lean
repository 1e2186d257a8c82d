import GoSplit.Text

/-!
Trimming, joining and comparing. A text is its trimmed part with white space around it, trimming
the end of a text reaches no further than its last visible character, and the lines of a
text put together again give the text. The order of texts is a linear one.
-/

namespace GoSplit.Text

/-! ### Trimming -/

theorem trimEnd_append_blank {s t : Text} (h : ∀ c ∈ t, isBlank c = true) :
    trimEnd (s ++ t) = trimEnd s := by
  have none_left : ∀ c ∈ t.reverse, isBlank c = true := fun c mem => h c (by simpa using mem)
  rw [trimEnd, dropEndWhile, List.reverse_append, List.dropWhile_append_of_pos none_left]
  rfl

/-- What trimming the end takes away. -/
theorem exists_trimEnd_append (s : Text) :
    ∃ t, s = trimEnd s ++ t ∧ ∀ c ∈ t, isBlank c = true := by
  refine ⟨(s.reverse.takeWhile isBlank).reverse, ?_, ?_⟩
  · rw [trimEnd, dropEndWhile, ← List.reverse_append, List.takeWhile_append_dropWhile,
      List.reverse_reverse]
  · intro c mem
    exact List.all_eq_true.1 List.all_takeWhile c (by simpa using mem)

theorem trimEnd_of_getLast? {s : Text} {c : Char} (last : s.getLast? = some c)
    (visible : isBlank c = false) : trimEnd s = s := by
  have first : s.reverse.head? = some c := by rw [List.head?_reverse, last]
  obtain ⟨rest, eq⟩ := List.head?_eq_some_iff.1 first
  rw [trimEnd, dropEndWhile, eq, List.dropWhile_cons, visible, if_neg (by simp), ← eq,
    List.reverse_reverse]

/-- The last character of a trimmed text is visible. -/
theorem getLast?_trimEnd {s : Text} {c : Char} (last : (trimEnd s).getLast? = some c) :
    isBlank c = false := by
  rw [trimEnd, dropEndWhile, List.getLast?_reverse] at last
  have := List.head?_dropWhile_not isBlank s.reverse
  rw [last] at this
  simpa using this

@[simp] theorem trimEnd_trimEnd (s : Text) : trimEnd (trimEnd s) = trimEnd s := by
  cases last : (trimEnd s).getLast? with
  | none =>
    rw [List.getLast?_eq_none_iff] at last
    rw [last]
    rfl
  | some c => exact trimEnd_of_getLast? last (getLast?_trimEnd last)

/-- Trimming stops at a visible character. -/
theorem trimEnd_append {s t : Text} (h : trimEnd t ≠ []) : trimEnd (s ++ t) = s ++ trimEnd t := by
  obtain ⟨blank, eq, all⟩ := exists_trimEnd_append t
  have last : (trimEnd t).getLast? = some ((trimEnd t).getLast h) := List.getLast?_eq_some_getLast h
  conv => lhs; rw [eq, ← List.append_assoc]
  rw [trimEnd_append_blank all]
  refine trimEnd_of_getLast? (c := (trimEnd t).getLast h) ?_ (getLast?_trimEnd last)
  rw [List.getLast?_append, last]
  rfl

/-- What trimming takes away. -/
theorem exists_trim_append (s : Text) :
    ∃ a b, s = a ++ trim s ++ b ∧ (∀ c ∈ a, isBlank c = true) ∧ ∀ c ∈ b, isBlank c = true := by
  obtain ⟨b, eq, blank⟩ := exists_trimEnd_append s
  refine ⟨(trimEnd s).takeWhile isBlank, b, ?_, ?_, blank⟩
  · rw [trim, trimStart, List.takeWhile_append_dropWhile, ← eq]
  · exact fun c mem => List.all_eq_true.1 List.all_takeWhile c mem

theorem trim_ne_nil {s : Text} {c : Char} (mem : c ∈ s) (visible : isBlank c = false) :
    trim s ≠ [] := by
  obtain ⟨a, b, eq, blankA, blankB⟩ := exists_trim_append s
  intro empty
  rw [eq, empty, List.append_nil, List.mem_append] at mem
  rcases mem with mem | mem
  · simp [blankA c mem] at visible
  · simp [blankB c mem] at visible

/-- The first character of a trimmed text is visible. -/
theorem head?_trim {s : Text} {c : Char} (first : (trim s).head? = some c) :
    isBlank c = false := by
  have := List.head?_dropWhile_not isBlank (trimEnd s)
  rw [trim, trimStart] at first
  rw [first] at this
  simpa using this

/-- So is the last one. -/
theorem getLast?_trim {s : Text} {c : Char} (last : (trim s).getLast? = some c) :
    isBlank c = false := by
  have cut := List.takeWhile_append_dropWhile (p := isBlank) (l := trimEnd s)
  refine getLast?_trimEnd (s := s) (c := c) ?_
  rw [← cut, List.getLast?_append]
  rw [trim, trimStart] at last
  rw [last]
  rfl

theorem trim_append_trim {a : Text} (blank : ∀ c ∈ a, isBlank c = true) (s : Text) :
    trim (a ++ trim s) = trim s := by
  by_cases empty : trim s = []
  · have none_left : trimEnd ([] ++ a) = trimEnd [] := trimEnd_append_blank blank
    rw [empty, List.append_nil]
    rw [List.nil_append] at none_left
    rw [trim, none_left]
    rfl
  · have last : (trim s).getLast? = some ((trim s).getLast empty) :=
      List.getLast?_eq_some_getLast empty
    have kept : trimEnd (trim s) = trim s := trimEnd_of_getLast? last (getLast?_trim last)
    rw [trim, trimEnd_append (by rwa [kept]), kept, trimStart, List.dropWhile_append_of_pos blank]
    cases eq : trim s with
    | nil => exact absurd eq empty
    | cons c cs =>
      have visible : isBlank c = false := head?_trim (s := s) (by rw [eq]; rfl)
      simp [visible]

@[simp] theorem trim_trim (s : Text) : trim (trim s) = trim s :=
  trim_append_trim (a := []) (by simp) s

theorem trim_sublist (s : Text) : (trim s).Sublist s := by
  obtain ⟨a, b, eq, -, -⟩ := exists_trim_append s
  conv => rhs; rw [eq]
  exact (List.sublist_append_right a _).trans (List.sublist_append_left _ b)

/-! ### Lines -/

theorem closeLines_concat (lines : List Text) (last : Text) :
    closeLines (lines ++ [last]) =
      lines.map dropReturn ++ if last.isEmpty then [] else [last] := by
  induction lines with
  | nil => rfl
  | cons line lines ih =>
    rw [List.map_cons, List.cons_append, List.cons_append, ← ih]
    cases lines <;> rfl

theorem trim_dropReturn (line : Text) : trim (dropReturn line) = trim line := by
  unfold dropReturn
  split
  · next last =>
    obtain ⟨before, rfl⟩ := List.getLast?_eq_some_iff.1 last
    rw [List.dropLast_concat, trim, trim,
      trimEnd_append_blank (List.forall_mem_singleton.2 (by decide))]
  · rfl

theorem pieces_nil (sep : Char) : pieces sep [] = [[]] := rfl

theorem pieces_cons (sep c : Char) (cs : Text) :
    pieces sep (c :: cs) =
      if c = sep then [] :: pieces sep cs
      else match pieces sep cs with
        | [] => [[c]]
        | piece :: others => (c :: piece) :: others := rfl

theorem pieces_ne_nil (sep : Char) (t : Text) : pieces sep t ≠ [] := by
  cases t with
  | nil => simp [pieces_nil]
  | cons c cs =>
    rw [pieces_cons]
    split
    · simp
    · split <;> simp

theorem sep_not_mem_pieces (sep : Char) (t : Text) : ∀ piece ∈ pieces sep t, sep ∉ piece := by
  induction t with
  | nil => simp [pieces_nil]
  | cons c cs ih =>
    rw [pieces_cons]
    split
    · simpa using ih
    · next other =>
      split
      · simpa using Ne.symm other
      · next piece others eq =>
        rw [eq] at ih
        simp only [List.mem_cons, forall_eq_or_imp] at ih ⊢
        exact ⟨by simp [Ne.symm other, ih.1], ih.2⟩

theorem joinWith_nil (sep : Text) : joinWith sep [] = [] := rfl

theorem joinWith_singleton (sep t : Text) : joinWith sep [t] = t := rfl

theorem joinWith_cons {sep t : Text} {rest : List Text} (h : rest ≠ []) :
    joinWith sep (t :: rest) = t ++ sep ++ joinWith sep rest := by
  cases rest with
  | nil => exact absurd rfl h
  | cons u rest => rfl

theorem joinWith_eq_flatMap (sep t : Text) (rest : List Text) :
    joinWith sep (t :: rest) = t ++ rest.flatMap fun u => sep ++ u := by
  induction rest generalizing t with
  | nil => simp [joinWith_singleton]
  | cons u rest ih => rw [joinWith_cons (by simp), ih, List.flatMap_cons]; simp

theorem joinWith_append_cons (sep : Text) (before : List Text) (t : Text) (after : List Text) :
    joinWith sep (before ++ t :: after) =
      (before.flatMap fun u => u ++ sep) ++ (t ++ after.flatMap fun u => sep ++ u) := by
  induction before with
  | nil => simpa using joinWith_eq_flatMap sep t after
  | cons u before ih =>
    rw [List.cons_append, joinWith_cons (by simp), ih, List.flatMap_cons]
    simp

theorem joinWith_pieces (sep : Char) (t : Text) : joinWith [sep] (pieces sep t) = t := by
  induction t with
  | nil => rfl
  | cons c cs ih =>
    rw [pieces_cons]
    split
    · next eq => rw [joinWith_cons (pieces_ne_nil sep cs), ih, eq]; rfl
    · split
      · next eq => exact absurd eq (pieces_ne_nil sep cs)
      · next piece others eq =>
        rw [eq] at ih
        rw [← ih]
        cases others <;> rfl

theorem pieces_eq_singleton {sep : Char} {t : Text} (h : sep ∉ t) : pieces sep t = [t] := by
  induction t with
  | nil => rfl
  | cons c cs ih =>
    rw [List.mem_cons, not_or] at h
    rw [pieces_cons, if_neg (Ne.symm h.1), ih h.2]

/-- A character other than the separator belongs to the first piece. -/
theorem exists_pieces_cons {sep c : Char} (other : c ≠ sep) (t : Text) :
    ∃ piece others, pieces sep (c :: t) = (c :: piece) :: others := by
  rw [pieces_cons, if_neg other]
  split
  · exact ⟨[], [], rfl⟩
  · next piece others _ => exact ⟨piece, others, rfl⟩

theorem pieces_append (sep : Char) (s t : Text) :
    pieces sep (s ++ sep :: t) = pieces sep s ++ pieces sep t := by
  induction s with
  | nil => simp [pieces_nil, pieces_cons]
  | cons c cs ih =>
    rw [List.cons_append, pieces_cons, pieces_cons, ih]
    split
    · rfl
    · cases eq : pieces sep cs with
      | nil => exact absurd eq (pieces_ne_nil sep cs)
      | cons piece others => rfl

/-- Pieces without separators can be put together and taken apart again. -/
theorem pieces_joinWith {sep : Char} {ts : List Text} (nonempty : ts ≠ [])
    (plain : ∀ t ∈ ts, sep ∉ t) : pieces sep (joinWith [sep] ts) = ts := by
  induction ts with
  | nil => exact absurd rfl nonempty
  | cons t ts ih =>
    obtain ⟨here, rest⟩ := List.forall_mem_cons.1 plain
    by_cases last : ts = []
    · rw [last, joinWith_singleton, pieces_eq_singleton here]
    · rw [joinWith_cons last, List.append_assoc, List.singleton_append, pieces_append,
        pieces_eq_singleton here, ih last rest, List.singleton_append]

theorem head?_joinWith {sep : Char} {ts : List Text} (visible : ∀ t ∈ ts, t ≠ [])
    (plain : ∀ t ∈ ts, sep ∉ t) : (joinWith [sep] ts).head? ≠ some sep := by
  cases ts with
  | nil => simp [joinWith_nil]
  | cons t ts =>
    obtain ⟨c, cs, rfl⟩ := List.exists_cons_of_ne_nil (visible t (List.mem_cons_self ..))
    rw [joinWith_eq_flatMap, List.cons_append, List.head?_cons]
    intro eq
    cases eq
    exact plain _ (List.mem_cons_self ..) (List.mem_cons_self ..)

/-- The last piece stands behind a separator, or is the whole text. -/
theorem exists_append_of_getLast? {sep : Char} {t last : Text}
    (ends : (pieces sep t).getLast? = some last) :
    ∃ before, t = before ++ last ∧ (before = [] ∨ ∃ more, before = more ++ [sep]) := by
  by_cases mem : sep ∈ t
  · obtain ⟨after, before, eq, apart⟩ := List.eq_append_cons_of_mem (List.mem_reverse.2 mem)
    have cut : t = before.reverse ++ sep :: after.reverse := by
      rw [← List.reverse_reverse t, eq]
      simp
    have plain : sep ∉ after.reverse := by simpa using apart
    rw [cut, pieces_append, pieces_eq_singleton plain] at ends
    have isLast : after.reverse = last := by simpa using ends
    exact ⟨before.reverse ++ [sep], by rw [cut, isLast]; simp, .inr ⟨_, rfl⟩⟩
  · rw [pieces_eq_singleton mem] at ends
    cases ends
    exact ⟨[], rfl, .inl rfl⟩

/-- What is added without a separator goes to the last piece. -/
theorem getLast?_pieces_append {sep : Char} {t last : Text} (h : sep ∉ t) {s : Text}
    (ends : (pieces sep s).getLast? = some last) :
    (pieces sep (s ++ t)).getLast? = some (last ++ t) := by
  have plain := sep_not_mem_pieces sep s last (List.mem_of_getLast? ends)
  have both : sep ∉ last ++ t := by simp [plain, h]
  obtain ⟨before, rfl, empty | ⟨more, cut⟩⟩ := exists_append_of_getLast? ends
  · rw [empty, List.nil_append, pieces_eq_singleton both]
    rfl
  · rw [cut, List.append_assoc, List.append_assoc, List.singleton_append, pieces_append,
      pieces_eq_singleton both]
    simp

/-! ### Order -/

theorem le_nil (t : Text) : le [] t = true := rfl

theorem le_cons (a b : Char) (as bs : Text) :
    le (a :: as) (b :: bs) = (decide (a.toNat < b.toNat) || (a == b && le as bs)) := rfl

theorem le_antisymm : ∀ {a b : Text}, le a b = true → le b a = true → a = b
  | [], [], _, _ => rfl
  | [], _ :: _, _, h => by cases h
  | _ :: _, [], h, _ => by cases h
  | a :: as, b :: bs, h, h' => by
    simp only [le_cons, Bool.or_eq_true, decide_eq_true_eq, Bool.and_eq_true, beq_iff_eq] at h h'
    rcases h with less | ⟨rfl, rest⟩
    · rcases h' with less' | ⟨rfl, -⟩
      · omega
      · omega
    · rcases h' with less' | ⟨-, rest'⟩
      · omega
      · rw [le_antisymm rest rest']

theorem le_trans : ∀ {a b c : Text}, le a b = true → le b c = true → le a c = true
  | [], _, _, _, _ => rfl
  | _ :: _, [], _, h, _ => by cases h
  | _ :: _, _ :: _, [], _, h => by cases h
  | a :: as, b :: bs, c :: cs, h, h' => by
    simp only [le_cons, Bool.or_eq_true, decide_eq_true_eq, Bool.and_eq_true, beq_iff_eq] at h h' ⊢
    rcases h with less | ⟨rfl, rest⟩
    · rcases h' with less' | ⟨rfl, -⟩
      · exact .inl (by omega)
      · exact .inl less
    · rcases h' with less' | ⟨rfl, rest'⟩
      · exact .inl less'
      · exact .inr ⟨rfl, le_trans rest rest'⟩

theorem le_total : ∀ a b : Text, (le a b || le b a) = true
  | [], _ => by simp [le_nil]
  | _ :: _, [] => by simp [le_nil]
  | a :: as, b :: bs => by
    have rest := le_total as bs
    simp only [le_cons, Bool.or_eq_true, decide_eq_true_eq, Bool.and_eq_true, beq_iff_eq] at rest ⊢
    rcases Nat.lt_trichotomy a.toNat b.toNat with less | same | more
    · exact .inl (.inl less)
    · have same : a = b := Char.toNat_inj.1 same
      exact rest.imp (fun h => .inr ⟨same, h⟩) fun h => .inr ⟨same.symm, h⟩
    · exact .inr (.inl more)

end GoSplit.Text
