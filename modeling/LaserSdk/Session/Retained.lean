import LaserSdk.Session.Fold
/-!
# What retention leaves

Retention drops the oldest records of a lane, so a reader folds a suffix of
the log, and the view says whether it found a record to start from. A snapshot
or a first delta that the fold of the whole log skipped is such a record too.
The log is any one here, with any number of writers.
-/

namespace LaserSdk.Session

variable {Doc Patch : Type} (J : JsonPatch Doc Patch)

/-- While the log was written and whatever retention left of it, a complete
view was the view of the log. -/
def CompleteSound (lane : List (LaneRecord Doc Patch)) : Prop :=
  ∀ log, log <+: lane → ∀ kept, kept <:+ log → (get J kept).complete = true →
    (get J kept).revision = (get J log).revision ∧ (get J kept).document = (get J log).document

/-- A record to start from leads a complete view to where it leads an empty
one: a snapshot stands at the revision reached, and a first delta meets a
document that it changes, or changed, as it changes the empty one. -/
def Taken (view : SessionStateView Doc) : LaneRecord Doc Patch → Prop
  | .snapshot baseRevision _ => view.complete = true → baseRevision = view.revision
  | .delta baseRevision patch => baseRevision = 0 → view.complete = true →
    match J.apply J.empty patch with
    | some next =>
      view.revision = 0 ∧ J.apply view.document patch = some next ∨ view.revision = 1 ∧ view.document = next
    | none => view.revision = 0 ∧ view.document = J.empty
  | .other => True

/-- The records one read finds before the newest one. -/
def window (log : List (LaneRecord Doc Patch)) : List (LaneRecord Doc Patch) :=
  log.drop (log.length - (contextReadWindow - 1))

/-! ## One record -/

variable {J}

theorem taken_iff {view : SessionStateView Doc} {r : LaneRecord Doc Patch} (hbaseline : r.isBaseline = true)
    (hcomplete : view.complete = true) : Taken J view r ↔
      (foldRecord J (.new J) r).revision = (foldRecord J view r).revision ∧
        (foldRecord J (.new J) r).document = (foldRecord J view r).document := by
  cases r with
  | other => exact absurd hbaseline (by simp [LaneRecord.isBaseline])
  | snapshot b d =>
    by_cases hb : b = view.revision
    · simp [Taken, foldRecord, SessionStateView.new, hb]
    · simp [Taken, foldRecord, SessionStateView.new, hb, hcomplete]
  | delta b p =>
    obtain rfl : b = 0 := by simpa [LaneRecord.isBaseline] using hbaseline
    by_cases hzero : view.revision = 0
    · -- Both apply the patch, to the empty document and to the view's.
      cases hempty : J.apply J.empty p with
      | none =>
        cases happly : J.apply view.document p with
        | none => simp [Taken, foldRecord, SessionStateView.new, hzero, hempty, happly, hcomplete, eq_comm]
        | some next =>
          have hne : view.document ≠ J.empty := fun heq => by simp [heq, hempty] at happly
          simp [Taken, foldRecord, SessionStateView.new, hzero, hempty, happly, hcomplete, hne]
      | some next =>
        cases happly : J.apply view.document p with
        | none => simp [Taken, foldRecord, SessionStateView.new, hzero, hempty, happly, hcomplete]
        | some next' => simp [Taken, foldRecord, SessionStateView.new, hzero, hempty, happly, hcomplete, eq_comm]
    · -- The view is past the first delta and skips it.
      have hskip : ¬ 0 = view.revision := fun heq => hzero heq.symm
      cases hempty : J.apply J.empty p with
      | none => simp [Taken, foldRecord, SessionStateView.new, hzero, hskip, hempty, hcomplete]
      | some next => simp [Taken, foldRecord, SessionStateView.new, hzero, hskip, hempty, hcomplete, eq_comm]

theorem taken_of_not_baseline {view : SessionStateView Doc} {r : LaneRecord Doc Patch} (h : r.isBaseline = false) :
    Taken J view r := by
  cases r with
  | other => trivial
  | snapshot b d => simp [LaneRecord.isBaseline] at h
  | delta b p =>
    intro hzero
    simp [LaneRecord.isBaseline, hzero] at h

/-- Nothing to start from was found: the record is taken as it is. -/
theorem taken_of_incomplete {view : SessionStateView Doc} {r : LaneRecord Doc Patch} (h : view.complete = false) :
    Taken J view r := by
  cases r with
  | other => trivial
  | snapshot b d => exact fun hcomplete => absurd (h.symm.trans hcomplete) (by decide)
  | delta b p => exact fun _ hcomplete => absurd (h.symm.trans hcomplete) (by decide)

theorem baseline_of_complete {r : LaneRecord Doc Patch} (h : (foldRecord J (.new J) r).complete = true) :
    r.isBaseline = true := by
  have hone := (foldRecords_complete J [r]).1
  simp only [foldRecords, List.foldl_cons, List.foldl_nil, List.any_cons, List.any_nil, Bool.or_false] at hone
  exact hone.symm.trans h

/-! ## Suffixes of a read -/

theorem suffix_snoc_cases {α : Type} {s l : List α} {r : α} (h : s <:+ l ++ [r]) : s = [] ∨ ∃ s', s = s' ++ [r] ∧ s' <:+ l := by
  obtain ⟨t, ht⟩ := h
  rcases List.eq_nil_or_concat s with rfl | ⟨s', last, rfl⟩
  · exact .inl rfl
  · rw [List.concat_eq_append, ← List.append_assoc] at ht
    obtain ⟨hinit, hlast⟩ := List.append_inj' ht rfl
    refine .inr ⟨s', ?_, t, hinit⟩
    rw [List.concat_eq_append, hlast]

theorem window_suffix (log : List (LaneRecord Doc Patch)) : window log <:+ log := List.drop_suffix _ _

theorem window_length (log : List (LaneRecord Doc Patch)) : (window log).length = min log.length (contextReadWindow - 1) := by
  rw [window, List.length_drop]
  omega

theorem view_ext {first second : SessionStateView Doc} (hrevision : first.revision = second.revision)
    (hdocument : first.document = second.document) (hcomplete : first.complete = second.complete) : first = second := by
  cases first
  cases second
  simp_all

/-- Under a log whose records are all taken, every complete part of one read
has the view of the read. -/
theorem complete_parts {lane : List (LaneRecord Doc Patch)}
    (htaken : ∀ before r after, lane = before ++ r :: after → Taken J (foldRecords J (window before)) r)
    {log : List (LaneRecord Doc Patch)} (hlog : log <+: lane) :
    ∀ read, read <:+ log → read.length ≤ contextReadWindow → ∀ part, part <:+ read →
      (foldRecords J part).complete = true → foldRecords J part = foldRecords J read := by
  induction log using List.reverseRecOn with
  | nil =>
    intro read hread _ part hpart _
    obtain rfl := List.suffix_nil.1 hread
    rw [List.suffix_nil.1 hpart]
  | append_singleton log r ih =>
    intro read hread hlength part hpart hcomplete
    have hlog' : log <+: lane := (List.prefix_append log [r]).trans hlog
    rcases suffix_snoc_cases hread with rfl | ⟨earlier, rfl, hearlier⟩
    · rw [List.suffix_nil.1 hpart]
    · rw [List.length_append, List.length_singleton] at hlength
      rcases suffix_snoc_cases hpart with rfl | ⟨first, rfl, hfirst⟩
      · exact absurd hcomplete (by simp [foldRecords, SessionStateView.new])
      · rw [foldRecords_snoc, foldRecords_snoc]
        rw [foldRecords_snoc] at hcomplete
        cases hstarted : (foldRecords J first).complete with
        | true => rw [ih hlog' earlier hearlier (by omega) first hfirst hstarted]
        | false =>
          -- The new record starts the part. The read before it is empty, or
          -- as far as the window of the log.
          rw [(foldRecords_complete J first).2 hstarted] at hcomplete ⊢
          cases hread' : (foldRecords J earlier).complete with
          | false => rw [(foldRecords_complete J earlier).2 hread']
          | true =>
            have hwindow : foldRecords J earlier = foldRecords J (window log) := by
              refine ih hlog' (window log) (window_suffix log) ?_ earlier ?_ hread'
              · rw [window_length]
                omega
              · refine List.suffix_of_suffix_length_le hearlier (window_suffix log) ?_
                have := hearlier.length_le
                rw [window_length]
                omega
            obtain ⟨after, rfl⟩ := hlog
            have hr := htaken log r after (by simp)
            rw [← hwindow, taken_iff (baseline_of_complete hcomplete) hread'] at hr
            exact view_ext hr.1 hr.2 (hcomplete.trans (complete_foldRecord J hread' r).symm)

/-! ## One read -/

theorem fetch_length (log : List (LaneRecord Doc Patch)) : (fetch log).length ≤ contextReadWindow := by
  rw [fetch_eq_drop, List.length_drop]
  omega

theorem fetch_suffix_self (log : List (LaneRecord Doc Patch)) : fetch log <:+ log := by
  rw [fetch_eq_drop]
  exact List.drop_suffix _ _

theorem fetch_suffix {kept log : List (LaneRecord Doc Patch)} (h : kept <:+ log) : fetch kept <:+ fetch log := by
  refine List.suffix_of_suffix_length_le ((fetch_suffix_self kept).trans h) (fetch_suffix_self log) ?_
  have := h.length_le
  rw [fetch_eq_drop, fetch_eq_drop, List.length_drop, List.length_drop]
  omega

theorem fetch_snoc (log : List (LaneRecord Doc Patch)) (r : LaneRecord Doc Patch) : fetch (log ++ [r]) = window log ++ [r] := by
  have hpositive : 0 < contextReadWindow := by decide
  have hdrop : log.length + 1 - contextReadWindow = log.length - (contextReadWindow - 1) := by omega
  rw [fetch_eq_drop, window, List.length_append, List.length_singleton, hdrop, List.drop_append_of_le_length (by omega)]

theorem get_snoc (log : List (LaneRecord Doc Patch)) (r : LaneRecord Doc Patch) :
    get J (log ++ [r]) = foldRecord J (foldRecords J (window log)) r := by
  rw [get, fetch_snoc, foldRecords_snoc]

theorem get_one (r : LaneRecord Doc Patch) : get J [r] = foldRecord J (.new J) r := by
  have hshort : [r].length ≤ contextReadWindow := by
    rw [List.length_singleton]
    decide
  exact (get_short hshort).trans (foldRecords_snoc J [] r)

variable (J)

/-- A complete view is the view of the log, at every moment and wherever
retention cuts, exactly if every record of the log is taken where it stands. -/
theorem complete_sound_iff (lane : List (LaneRecord Doc Patch)) : CompleteSound J lane ↔
    ∀ before r after, lane = before ++ r :: after → Taken J (foldRecords J (window before)) r := by
  constructor
  · intro hsound before r after hsplit
    cases hbaseline : r.isBaseline with
    | false => exact taken_of_not_baseline hbaseline
    | true =>
      cases hcomplete : (foldRecords J (window before)).complete with
      | false => exact taken_of_incomplete hcomplete
      | true =>
        have hlog : before ++ [r] <+: lane := ⟨after, by rw [hsplit, List.append_assoc]; rfl⟩
        have hsame := hsound _ hlog [r] (List.suffix_append before [r])
        rw [get_snoc, get_one] at hsame
        refine (taken_iff hbaseline hcomplete).2 (hsame ?_)
        have hone := (foldRecords_complete J ([] ++ [r])).1
        rw [foldRecords_snoc] at hone
        exact hone.trans (by simp [hbaseline])
  · intro htaken log hlog kept hkept hcomplete
    have hread : fetch kept <:+ fetch log := fetch_suffix hkept
    have hequal := complete_parts htaken hlog (fetch log) (fetch_suffix_self log) (fetch_length log) (fetch kept) hread hcomplete
    rw [get, get, hequal]
    exact ⟨rfl, rfl⟩

/-- A second writer's snapshot comes after the delta it does not know. The
fold of the log skips it, and retention may leave nothing else. -/
theorem stale_snapshot_is_complete :
    let lane := [.delta 0 ("x", 1), .delta 1 ("y", 2), .snapshot 1 [("x", 1)]]
    [.snapshot 1 [("x", 1)]] <:+ lane ∧ get flatJson [.snapshot 1 [("x", 1)]] = ⟨1, [("x", 1)], true⟩ ∧
      get flatJson lane = ⟨2, [("x", 1), ("y", 2)], true⟩ ∧ ¬ CompleteSound flatJson lane := by
  have hkept : [LaneRecord.snapshot 1 [("x", 1)]] <:+
      [.delta 0 ("x", 1), .delta 1 ("y", 2), .snapshot 1 [("x", 1)]] := ⟨[.delta 0 ("x", 1), .delta 1 ("y", 2)], rfl⟩
  refine ⟨hkept, by decide, by decide, fun hsound => ?_⟩
  exact absurd (hsound _ (List.prefix_refl _) _ hkept (by decide)).1 (by decide)

end LaserSdk.Session
