import RasterScript.Proofs.Session.Coverage

/-! A listener hears of a whole sweep: the size, the start, an update at each multiple of its
interval, one at the end, and the finish. -/
namespace RasterScript

/-! ### Trackers -/

/-- What is heard of a task of some size from its start to its finish, with an update at each
multiple of an interval. -/
def Progress.Complete (interval size : Nat) (events : List Event) : Prop :=
  ∃ marks : List Nat, marks.Pairwise (· < ·) ∧
    (∀ k, k ∈ marks ↔ 0 < k ∧ k < size ∧ interval ∣ k) ∧
    events = [Event.size size, .start] ++
      marks.map (fun k => Event.update (Float.ofNat k / Float.ofNat size)) ++ [.update 1, .finish]

namespace Tracker

/-- The multiples of an interval below a size, as far as a number of pixels reaches. -/
def marks (interval size done : Nat) : List Nat :=
  (List.range (done + 1)).filter fun k => 0 < k ∧ k < size ∧ interval ∣ k

private theorem marks_succ (interval size done : Nat) :
    marks interval size (done + 1) = marks interval size done ++
      if (done + 1) % interval = 0 ∧ done + 1 < size then [done + 1] else [] := by
  rw [marks, List.range_succ, List.filter_append, marks, List.filter_singleton]
  simp [Nat.dvd_iff_mod_eq_zero, and_comm]

/-- A tracker of a task of `total` pixels after `n` of them. -/
structure After (gap total n : Nat) (t : Tracker) : Prop where
  size : t.size = total
  interval : t.interval = gap
  done : t.done = n
  /-- The last pixel is left for the finish. -/
  lastReported : t.lastReported = 0 ∨ t.lastReported < total
  heard : t.heard.reverse = [Event.size total, .start] ++
    (marks gap total n).map fun k => Event.update (Float.ofNat k / Float.ofNat total)

theorem after_start (wanted size : Nat) :
    After (if wanted = 0 then max 1 (size / 100) else wanted) size 0 (start wanted size) where
  size := rfl
  interval := by rw [start, Nat.max_comm]
  done := rfl
  lastReported := .inl rfl
  heard := rfl

section After

variable {gap total n : Nat} {t : Tracker}

theorem After.step (h : After gap total n t) : After gap total (n + 1) t.step := by
  obtain ⟨rfl, rfl, rfl, hlast, hheard⟩ := h
  rw [Tracker.step]
  simp only [Bool.and_eq_true, decide_eq_true_eq]
  split
  · next hdue =>
    refine ⟨rfl, rfl, rfl, .inr hdue.2, ?_⟩
    rw [marks_succ, if_pos hdue, List.map_append, ← List.append_assoc, ← hheard]
    exact List.reverse_cons
  · next hdue =>
    refine ⟨rfl, rfl, rfl, hlast, ?_⟩
    rw [marks_succ, if_neg hdue, List.append_nil]
    exact hheard

theorem After.steps (h : After gap total 0 t) (n : Nat) :
    After gap total n (Nat.repeat Tracker.step n t) := by
  induction n with
  | zero => exact h
  | succ n ih => exact ih.step

/-- The finish always reports that all is done. -/
theorem After.finish (h : After gap total n t) :
    t.finish.heard.reverse = [Event.size total, .start] ++
      (marks gap total n).map (fun k => Event.update (Float.ofNat k / Float.ofNat total)) ++
      [.update 1, .finish] := by
  have hlast : t.size = 0 ∨ t.lastReported ≠ t.size := by
    rw [h.size]
    rcases h.lastReported with hzero | hless
    · rw [hzero]
      exact (Nat.eq_zero_or_pos total).imp_right Nat.ne_of_lt
    · exact .inr (Nat.ne_of_lt hless)
  rw [Tracker.finish, ← h.heard]
  simp only [Bool.or_eq_true, decide_eq_true_eq, if_pos hlast, tell, List.reverse_cons,
    List.append_assoc]
  rfl

end After

end Tracker

theorem Progress.complete_events (wanted size : Nat) :
    Complete (if wanted = 0 then max 1 (size / 100) else wanted) size
      (events wanted size size true) := by
  have hafter := (Tracker.after_start wanted size).steps size
  refine ⟨Tracker.marks _ size size, List.pairwise_lt_range.filter _, fun k => ?_, hafter.finish⟩
  rw [Tracker.marks, List.mem_filter, List.mem_range, decide_eq_true_eq]
  constructor
  · exact And.right
  · intro h
    exact ⟨by omega, h⟩

/-! ### Writes -/

namespace Progression

variable {limit : Nat} {p q : Progression} {v : Visit}

private theorem length_writeValues {i : Nat} {values : List Float}
    (h : p.writeValues v i values = (q, .ok ())) :
    q.writes.length = p.writes.length + values.length := by
  induction values generalizing p i with
  | nil =>
    cases h
    rfl
  | cons value values ih =>
    rw [writeValues] at h
    split at h
    · next p₁ hfirst =>
      obtain ⟨-, -, w, -, hwrites⟩ := writeValue_ok hfirst
      rw [ih h, hwrites, List.length_cons, List.length_cons]
      omega
    · next hno => exact absurd h (hno q ())

private theorem length_visit (h : p.visit limit v = (q, .ok ())) :
    q.writes.length = p.writes.length + p.session.code.destinations.length := by
  rw [visit] at h
  split at h
  · cases h
  · next t vs hrun =>
    split at h
    · cases h
    · next hwrite =>
      have hlength := length_writeValues hwrite
      cases h
      rw [← length_runPixel hrun]
      exact hlength

/-- Each visit tries one write for each destination. -/
theorem length_visitAll {visits : List Visit} (h : p.visitAll limit visits = (q, .ok ())) :
    q.writes.length = p.writes.length + visits.length * p.session.code.destinations.length := by
  induction visits generalizing p with
  | nil =>
    cases h
    simp
  | cons v visits ih =>
    rw [visitAll] at h
    split at h
    · next p₁ hfirst =>
      have hlater := p.visit_later limit v
      rw [hfirst] at hlater
      rw [ih h, length_visit hfirst, hlater.code, List.length_cons, Nat.add_mul, Nat.one_mul]
      omega
    · next hno => exact absurd h (hno q ())

end Progression

/-! ### Sweeps -/

namespace Session

section Reports

variable {limit : Nat} {every : Nat → Nat} {s t : Session} {g : Gallery} {b : Extent}

/-- Default bounds do the same as the bounds they are. -/
theorem sweep_of_prepare (h : s.prepare g = .ok (t, b)) :
    s.sweep limit every g = t.sweep limit every g := by
  obtain ⟨hmissing, rfl⟩ := prepare_ok h
  have hprepare : (s.setBounds b).prepare g = .ok (s.setBounds b, b) :=
    prepare_eq_ok rfl (missingDestination?_eq_none.mp hmissing)
  simp only [sweep, h, hprepare]

/-- A sweep that comes to its end visits as many pixels as it has announced. -/
theorem Starts.reports {first : BoundRaster} (h : s.Starts limit g first) (hb : s.bounds = some b)
    (hok : (s.sweep limit every g).result = .ok ()) :
    let visits := swept first.transform (extentOf g first.raster) b
    (s.sweep limit every g).writes.length = visits.length * s.code.destinations.length ∧
      (s.sweep limit every g).events =
        Progress.events (every visits.length) visits.length visits.length true := by
  intro visits
  obtain ⟨u, q, halike, hvisits, hwrites, hevents⟩ :=
    sweep_completed (prepare_eq_ok hb h.bound) h.plan_eq hok
  have hlength := Progression.length_visitAll hvisits
  obtain ⟨hdone, -⟩ := Progression.visitAll_ok hvisits
  rw [Nat.zero_add] at hdone
  refine ⟨?_, by rw [hevents, hdone]⟩
  rw [hwrites, List.length_reverse, hlength, halike.code]
  exact Nat.zero_add _

end Reports

/-- Reports are complete and in order: for every size and interval a listener hears of the size, the
start, each multiple of the interval below the size, the end and the finish. A sweep that comes to
its end has announced the number of pixels that it has then evaluated and written, those whose world
positions round into its bounds. -/
theorem reports_are_complete (limit : Nat) (every : Nat → Nat) (s : Session) (g : Gallery) :
    let r := s.sweep limit every g
    (∀ wanted size, Progress.Complete (if wanted = 0 then max 1 (size / 100) else wanted) size
      (Progress.events wanted size size true)) ∧
    (r.result = .ok () → ∃ first b values d,
      s.destinations.head? = some (some first) ∧ r.session.bounds = some b ∧
      let visits := swept first.transform (extentOf g first.raster) b
      let wanted := every visits.length
      Evaluated limit (s.setBounds b) (s.setBounds b).direct g visits values d r.gallery ∧
      r.writes.length = visits.length * s.code.destinations.length ∧
      Progress.Complete (if wanted = 0 then max 1 (visits.length / 100) else wanted) visits.length
        r.events) := by
  intro r
  refine ⟨Progress.complete_events, fun hok => ?_⟩
  cases hprepare : s.prepare g with
  | error f =>
    have herror : r.result = .error (.failed f) := by
      show (s.sweep limit every g).result = _
      rw [sweep_of_error hprepare]
    cases hok.symm.trans herror
  | ok prepared =>
    obtain ⟨t, b⟩ := prepared
    have hr : r = t.sweep limit every g := sweep_of_prepare hprepare
    have halike : Alike t g r.session r.gallery := sweep_alike hprepare
    obtain ⟨-, rfl⟩ := prepare_ok hprepare
    have hb : (s.setBounds b).bounds = some b := rfl
    rw [hr] at hok
    obtain ⟨first, hstarts⟩ | ⟨-, halt, hhalt⟩ := starts_or_unchanged limit every g hb
    · obtain ⟨values, d, hevaluated⟩ := hstarts.completed hb hok
      obtain ⟨hwrites, hevents⟩ := hstarts.reports hb hok
      refine ⟨first, b, values, d, hstarts.head, halike.bounds.trans hb, ?_⟩
      rw [hr, hevents]
      exact ⟨hevaluated, hwrites, Progress.complete_events _ _⟩
    · cases hok.symm.trans hhalt

/-- A row of pixels of half the width. -/
def halves : Session :=
  { start painting with
    destinations := [some ⟨0, .affine 2 1 (-1) 0⟩]
    bounds := some (.sized 4 1) }

/-- Six of seven pixels lie inside the bounds, and the interval does not divide their number. -/
theorem halves_reports :
    let r := halves.sweep 0 (fun _ => 4) [.ofFunction (.sized 7 1) fun _ _ => 0]
    r.result = .ok () ∧ r.writes.length = 6 ∧ Progress.Complete 4 6 r.events := by
  have hok : (halves.sweep 0 (fun _ => 4) [.ofFunction (.sized 7 1) fun _ _ => 0]).result =
      .ok () := by decide +kernel
  have hsix : (halves.sweep 0 (fun _ => 4)
      [.ofFunction (.sized 7 1) fun _ _ => 0]).writes.length = 6 := by decide +kernel
  intro r
  obtain ⟨first, b, values, d, -, -, -, hwrites, hevents⟩ :=
    (reports_are_complete 0 (fun _ => 4) halves [.ofFunction (.sized 7 1) fun _ _ => 0]).2 hok
  have hcount : (swept first.transform (extentOf [.ofFunction (.sized 7 1) fun _ _ => 0]
      first.raster) b).length = 6 := (Nat.mul_one _).symm.trans (hwrites.symm.trans hsix)
  rw [hcount] at hevents
  exact ⟨hok, hsix, hevents⟩

end Session

end RasterScript
