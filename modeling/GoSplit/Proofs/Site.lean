import GoSplit.Proofs.Tree.Moving
import GoSplit.Site

/-!
Actions on a site, run: each is known by the result it gives and the site it leaves.
-/

namespace GoSplit

namespace SiteM

variable {ε δ α β : Type}

@[simp] theorem on_pure (a : α) (site : Site) : (pure a : SiteM ε α).on site = (.ok a, site) := rfl

@[simp] theorem on_throw (e : ε) (site : Site) :
    (throw e : SiteM ε α).on site = (.error e, site) := rfl

/-- An action and then another. -/
theorem on_bind (action : SiteM ε α) (next : α → SiteM ε β) (site : Site) :
    (action >>= next).on site =
      match action.on site with
      | (.ok a, after) => (next a).on after
      | (.error e, after) => (.error e, after) := by
  simp only [on, ExceptT.run_bind, StateT.run_bind]
  rcases h : StateT.run (ExceptT.run action) site with ⟨_ | a, after⟩ <;> rfl

theorem on_bind_of_ok {action : SiteM ε α} {next : α → SiteM ε β} {site after : Site} {a : α}
    (h : action.on site = (.ok a, after)) : (action >>= next).on site = (next a).on after := by
  rw [on_bind, h]

/-- Both parts of an action that succeeds have succeeded. -/
theorem on_bind_eq_ok_iff {action : SiteM ε α} {next : α → SiteM ε β} {site after : Site} {b : β} :
    (action >>= next).on site = (.ok b, after) ↔
      ∃ a mid, action.on site = (.ok a, mid) ∧ (next a).on mid = (.ok b, after) := by
  rw [on_bind]
  rcases action.on site with ⟨e | a, mid⟩
  · simp
  · simp

/-- An action and then another, however they end. -/
theorem on_bind_cases {action : SiteM ε α} {next : α → SiteM ε β} {site after : Site}
    {result : Except ε β} (ran : (action >>= next).on site = (result, after)) :
    (∃ e, action.on site = (.error e, after) ∧ result = .error e) ∨
      ∃ a mid, action.on site = (.ok a, mid) ∧ (next a).on mid = (result, after) := by
  rw [on_bind] at ran
  rcases first : action.on site with ⟨e | a, mid⟩
  · rw [first] at ran
    cases ran
    exact .inl ⟨e, rfl, rfl⟩
  · rw [first] at ran
    exact .inr ⟨a, mid, rfl, ran⟩

@[simp] theorem on_look (f : Tree → α) (site : Site) :
    (look f : SiteM ε α).on site = (.ok (f site.tree), site) := rfl

@[simp] theorem on_lift (result : Except ε α) (site : Site) :
    (lift result).on site = (result, site) := by
  cases result <;> rfl

theorem on_lift_eq_iff {result r : Except ε α} {site after : Site} :
    (lift result).on site = (r, after) ↔ result = r ∧ site = after := by
  rw [on_lift, Prod.mk.injEq]

@[simp] theorem on_files (action : FileM ε α) (site : Site) :
    (files action).on site =
      ((action.on site.tree).1, { site with tree := (action.on site.tree).2 }) :=
  rfl

@[simp] theorem on_mapError (f : ε → δ) (action : SiteM ε α) (site : Site) :
    (mapError f action).on site = ((action.on site).1.mapError f, (action.on site).2) := rfl

theorem on_mapError_eq_ok_iff {f : ε → δ} {action : SiteM ε α} {site after : Site} {a : α} :
    (mapError f action).on site = (.ok a, after) ↔ action.on site = (.ok a, after) := by
  rw [on_mapError]
  rcases action.on site with ⟨_ | _, _⟩ <;> simp [Except.mapError]

theorem on_mapError_cases {f : ε → δ} {action : SiteM ε α} {site after : Site} {result : Except δ α}
    (ran : (mapError f action).on site = (result, after)) :
    ∃ r, action.on site = (r, after) ∧ result = r.mapError f := by
  rw [on_mapError, Prod.mk.injEq] at ran
  obtain ⟨rfl, rfl⟩ := ran
  exact ⟨_, rfl, rfl⟩

@[simp] theorem on_attempt (action : SiteM ε α) (site : Site) :
    (attempt action : SiteM δ (Except ε α)).on site =
      (.ok (action.on site).1, (action.on site).2) :=
  rfl

end SiteM

namespace Site

/-- The site behind a note. -/
def noted (site : Site) (line : String) : Site :=
  { site with
    journal := site.journal ++ [.noted line]
    tree := site.tree.append (Log.line site.elapsed line.toList) }

@[simp] theorem on_note {ε : Type} (line : String) (site : Site) :
    (SiteM.note line : SiteM ε Unit).on site = (.ok (), site.noted line) := rfl

theorem on_change {path : Path} {f : Tree → Except IoError Tree} {site : Site} {changed : Tree}
    (h : f site.tree = .ok changed) :
    (change path f).on site = (.ok (), { site with tree := changed }) := by
  rw [change, SiteM.on_files, FileM.on_mapError, FileM.on_change, h]
  rfl

theorem on_change_eq_ok_iff {path : Path} {f : Tree → Except IoError Tree} {site after : Site} :
    (change path f).on site = (.ok (), after) ↔
      ∃ changed, f site.tree = .ok changed ∧ after = { site with tree := changed } := by
  rw [change, SiteM.on_files, FileM.on_mapError, FileM.on_change]
  cases f site.tree with
  | error e => simp [Except.mapError]
  | ok changed => simp [Except.mapError, eq_comm]

/-- A change that fails leaves the site as it is. -/
theorem on_change_cases {path : Path} {f : Tree → Except IoError Tree} {site after : Site}
    {result : Except SplitError Unit} (ran : (change path f).on site = (result, after)) :
    after = site ∧ result ≠ .ok () ∨
      ∃ changed, f site.tree = .ok changed ∧ after = { site with tree := changed } ∧
        result = .ok () := by
  rw [change, SiteM.on_files, FileM.on_mapError, FileM.on_change] at ran
  cases changing : f site.tree with
  | error e =>
    rw [changing] at ran
    cases ran
    exact .inl ⟨rfl, nofun⟩
  | ok changed =>
    rw [changing] at ran
    cases ran
    exact .inr ⟨changed, rfl, rfl, rfl⟩

theorem on_makeDirs {path : Path} {site : Site} {made : Tree}
    (h : (Tree.makeDirs path).on site.tree = (.ok (), made)) :
    (makeDirs path).on site = (.ok (), { site with tree := made }) := by
  rw [makeDirs, SiteM.on_files, FileM.on_mapError, h]
  rfl

/-- An action on the tree alone, whose errors are reported in other words. -/
theorem on_files_eq_ok_iff {ε δ α : Type} {f : ε → δ} {action : FileM ε α} {site after : Site}
    {a : α} :
    (SiteM.files (FileM.mapError f action)).on site = (.ok a, after) ↔
      ∃ tree, action.on site.tree = (.ok a, tree) ∧ after = { site with tree } := by
  rw [SiteM.on_files, FileM.on_mapError]
  rcases action.on site.tree with ⟨_ | _, tree⟩
  · simp [Except.mapError]
  · simp [Except.mapError, eq_comm]

end Site

end GoSplit
