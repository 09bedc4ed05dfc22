/-
# `Proofs.Width` — what more places are good for

With rows that do not depend on what was chosen before, a search with more
places should not end up worse.  That is so without the constraint, and in
the build phase, where nothing is claimed: every path then has the same
row, and the best path of the wider search, extended by the same entry, is
at least as good as any path of the narrower one (`dominates_step_of_open`).

With the constraint a path's row depends on what it has claimed, and being
the better path now is no longer enough.  For three units the search is
still safe, because up to the last step the wider one KEEPS every path that
the narrower one has (`subset_of_le_two`), and a path that both have is
worth the same to both.

With four units two choices can be masked, and a path can be crowded out by
ones that get stuck later: `detour` does worse with two places than with
one.
-/
import OrderDecoding.Proofs.Crowding

namespace OrderDecoding

open Score LawfulScore

namespace Beam

variable {α : Type} {p : Position α}

/-! ## Following survivors -/

theorem follow_score {e : Extension α} {path : Path α} (h : follow p e = .ok path) :
    path.score = e.score := by
  obtain ⟨choice, -, h⟩ := bind_eq_ok_iff.mp h
  cases h
  rfl

theorem scores_of_follow {es : List (Extension α)} {paths : List (Path α)}
    (h : es.mapM (follow p) = .ok paths) : paths.map (·.score) = es.map (·.score) :=
  map_eq_of_mapM (fun _ _ => follow_score) h

variable [Score α]

/-- The first of some paths is as good as any of some others. -/
def Dominates (paths others : List (Path α)) : Prop :=
  ∀ q ∈ others, ∃ best, paths.head? = some best ∧ q.score ≤ best.score

/-- Paths that are ahead in the end give the better answer. -/
theorem exists_search_of_dominates (hunits : 0 < p.numSteps) {constrained : Bool}
    {narrow wide : Nat} (hnarrow : 1 ≤ narrow) (hlt : narrow < wide) (hsize : wide ≤ p.vocab.size)
    {paths₁ paths₂ : List (Path α)}
    (h₁ : takeSteps (Beam.step p (p.constraint constrained) narrow) p.numSteps [Path.start]
      = .ok paths₁)
    (h₂ : takeSteps (Beam.step p (p.constraint constrained) wide) p.numSteps [Path.start]
      = .ok paths₂) (hdominates : Dominates paths₂ paths₁) {found : Found α}
    (h : Beam.search p narrow constrained = .ok found) :
    ∃ found', Beam.search p wide constrained = .ok found' ∧
      found.best.score ≤ found'.best.score := by
  rw [search_of_takeSteps hunits hnarrow (by omega) h₁] at h
  rw [search_of_takeSteps hunits (by omega) hsize h₂]
  cases paths₁ with
  | nil => cases h
  | cons first others =>
    cases h
    obtain ⟨best, hbest, hle⟩ := hdominates first List.mem_cons_self
    obtain ⟨rest, rfl⟩ := List.head?_eq_some_iff.mp hbest
    exact ⟨_, rfl, hle⟩

variable [LawfulScore α] {c : Constraint}

/-- A step leaves its paths best first. -/
theorem pairwise_step {width : Nat} {paths paths' : List (Path α)}
    (h : Beam.step p c width paths = .ok paths') :
    paths'.Pairwise fun q q' => ranks q'.score q.score = true := by
  obtain ⟨rows, -, hfollow⟩ := step_eq_ok_iff.mp h
  have hpairwise := pairwise_survivors width
    ((paths.zip rows).flatMap fun pr => extensions pr.1 pr.2)
  rw [← List.pairwise_map (f := Extension.score) (R := fun x y => ranks y x = true),
    ← scores_of_follow hfollow, List.pairwise_map] at hpairwise
  exact hpairwise

/-- From the same paths fewer places lead to the first of the paths that
more places lead to. -/
theorem step_eq_take {narrow wide : Nat} (hle : narrow ≤ wide) {paths paths₁ paths₂ : List (Path α)}
    (h₁ : Beam.step p c narrow paths = .ok paths₁) (h₂ : Beam.step p c wide paths = .ok paths₂) :
    paths₁ = paths₂.take narrow := by
  obtain ⟨rows, hrows, hfollow₁⟩ := step_eq_ok_iff.mp h₁
  obtain ⟨rows', hrows', hfollow₂⟩ := step_eq_ok_iff.mp h₂
  obtain rfl : rows = rows' := Except.ok.inj (hrows.symm.trans hrows')
  have htake := mapM_of_forall₂ (List.forall₂_take narrow (forall₂_of_mapM hfollow₂))
  rw [survivors_eq_take, List.take_take, Nat.min_eq_left hle, ← survivors_eq_take,
    hfollow₁] at htake
  exact Except.ok.inj htake

/-! ## The next step -/

/-- Extensions that are no better than some others lead to paths that are
no better than the first of those. -/
theorem dominates_of_follow {narrow wide : Nat} (hwide : 0 < wide) {es es' : List (Extension α)}
    {paths₁ paths₂ : List (Path α)} (hvalid : ∀ e ∈ es', e.score < posInf)
    (hle : ∀ e ∈ es, ∃ e' ∈ es', e.score ≤ e'.score)
    (h₁ : (survivors narrow es).mapM (follow p) = .ok paths₁)
    (h₂ : (survivors wide es').mapM (follow p) = .ok paths₂) : Dominates paths₂ paths₁ := by
  intro q hq
  obtain ⟨e, he, hfollow⟩ := exists_of_mem_mapM h₁ hq
  obtain ⟨hmem, hopen⟩ := mem_of_mem_survivors he
  obtain ⟨e', he', hscore⟩ := hle e hmem
  rcases survivors_cases hwide hvalid with ⟨-, hmasked⟩ | ⟨best, rest, hsome, hbest⟩
  · exact absurd (le_trans hscore (hmasked e' he')) hopen
  · rw [hsome, List.mapM_cons] at h₂
    obtain ⟨first, hfirst, h₂⟩ := bind_eq_ok_iff.mp h₂
    obtain ⟨others, -, h₂⟩ := bind_eq_ok_iff.mp h₂
    cases h₂
    refine ⟨first, rfl, ?_⟩
    rw [follow_score hfollow, follow_score hfirst]
    exact le_trans hscore (hbest e' he')

/-- A step that starts from extensions no better than those of the other
one is dominated by it. -/
theorem dominates_step {narrow wide step : Nat} (hwide : 0 < wide) {shared : List α}
    (hshares : p.Shares step shared) {paths₁ paths₂ paths₁' paths₂' : List (Path α)}
    (hkept₁ : ∀ path ∈ paths₁, Kept p c step path) (hkept₂ : ∀ path ∈ paths₂, Kept p c step path)
    (hle : ∀ e ∈ offers c shared paths₁, ∃ e' ∈ offers c shared paths₂, e.score ≤ e'.score)
    (h₁ : Beam.step p c narrow paths₁ = .ok paths₁')
    (h₂ : Beam.step p c wide paths₂ = .ok paths₂') : Dominates paths₂' paths₁' := by
  rw [step_of_shares hshares fun path hpath => (hkept₁ path hpath).length] at h₁
  rw [step_of_shares hshares fun path hpath => (hkept₂ path hpath).length] at h₂
  refine dominates_of_follow hwide ?_ hle h₁ h₂
  intro e he
  have hnonpos := offers_nonpos (c := c) hshares.nonpos fun path hpath => (hkept₂ path hpath).nonpos
  exact lt_posInf_of_nonpos (hnonpos e he)

/-- Where nothing is masked, extending the best path is best. -/
theorem exists_le_offer_of_open {step : Nat} (hopen : c.enabled = false ∨ p.units.phase = .build)
    {shared : List α} (hshares : p.Shares step shared) {paths₁ paths₂ : List (Path α)}
    (hkept₁ : ∀ path ∈ paths₁, Kept p c step path) (hkept₂ : ∀ path ∈ paths₂, Kept p c step path)
    (hdominates : Dominates paths₂ paths₁) {e : Extension α} (he : e ∈ offers c shared paths₁) :
    ∃ e' ∈ offers c shared paths₂, e.score ≤ e'.score := by
  obtain ⟨hparent, x, hx, hscore⟩ := mem_offers_iff.mp he
  obtain ⟨best, hbest, hle⟩ := hdominates _ hparent
  have hbest := List.mem_of_mem_head? hbest
  rw [(hkept₁ _ hparent).reached.constrain_eq_self hopen] at hx
  have hx₀ := hshares.nonpos x (List.mem_of_getElem? hx)
  refine ⟨⟨best, e.index, best.score + x⟩, mem_offers_iff.mpr ⟨hbest, x, ?_, rfl⟩, ?_⟩
  · rw [(hkept₂ _ hbest).reached.constrain_eq_self hopen, hx]
  · rw [hscore]
    exact add_le_add hle (le_self_left hx₀) (lt_posInf_of_nonpos (hkept₂ _ hbest).nonpos)
      (lt_posInf_of_nonpos hx₀)

/-- A path that both searches have is worth the same to both. -/
theorem exists_le_offer_of_subset {step : Nat} {shared : List α} (hshares : p.Shares step shared)
    {paths₁ paths₂ : List (Path α)} (hkept₂ : ∀ path ∈ paths₂, Kept p c step path)
    (hsubset : paths₁ ⊆ paths₂) {e : Extension α} (he : e ∈ offers c shared paths₁) :
    ∃ e' ∈ offers c shared paths₂, e.score ≤ e'.score := by
  obtain ⟨hparent, hrest⟩ := mem_offers_iff.mp he
  have he₂ : e ∈ offers c shared paths₂ := mem_offers_iff.mpr ⟨hsubset hparent, hrest⟩
  have hnonpos := offers_nonpos (c := c) hshares.nonpos fun path hpath => (hkept₂ path hpath).nonpos
  exact ⟨e, he₂, le_self_left (hnonpos e he₂)⟩

/-! ## Two searches side by side -/

variable {narrow wide : Nat}

theorem dominates_start : Dominates [Path.start] [(Path.start : Path α)] := by
  intro q hq
  obtain rfl := List.mem_singleton.mp hq
  exact ⟨Path.start, rfl, zero_le_zero⟩

/-- Where nothing is masked, the wider search is ahead at every step. -/
theorem dominates_of_open (hfree : p.HistoryFree) (hmass : p.AlwaysMass) (hwide : 0 < wide)
    (hopen : c.enabled = false ∨ p.units.phase = .build) {n : Nat} (hn : n ≤ p.numSteps)
    {paths₁ paths₂ : List (Path α)}
    (h₁ : takeSteps (Beam.step p c narrow) n [Path.start] = .ok paths₁)
    (h₂ : takeSteps (Beam.step p c wide) n [Path.start] = .ok paths₂) :
    Dominates paths₂ paths₁ := by
  induction n generalizing paths₁ paths₂ with
  | zero =>
    cases h₁
    cases h₂
    exact dominates_start
  | succ n ih =>
    rw [takeSteps_succ] at h₁ h₂
    obtain ⟨before₁, hbefore₁, h₁⟩ := bind_eq_ok_iff.mp h₁
    obtain ⟨before₂, hbefore₂, h₂⟩ := bind_eq_ok_iff.mp h₂
    obtain ⟨shared, hshares⟩ := Position.exists_shares hfree hmass hn
    have hkept₁ := kept_takeSteps hbefore₁
    have hkept₂ := kept_takeSteps hbefore₂
    have hdominates := ih (Nat.le_of_succ_le hn) hbefore₁ hbefore₂
    refine dominates_step hwide hshares hkept₁ hkept₂ ?_ h₁ h₂
    intro e he
    exact exists_le_offer_of_open hopen hshares hkept₁ hkept₂ hdominates he

/-- After the first step the wider search has the paths of the narrower one
before its own. -/
theorem eq_take_of_one (hle : narrow ≤ wide) {paths₁ paths₂ : List (Path α)}
    (h₁ : takeSteps (Beam.step p c narrow) 1 [Path.start] = .ok paths₁)
    (h₂ : takeSteps (Beam.step p c wide) 1 [Path.start] = .ok paths₂) :
    paths₁ = paths₂.take narrow ∧
      paths₂.Pairwise fun q q' => ranks q'.score q.score = true := by
  rw [takeSteps_succ] at h₁ h₂
  exact ⟨step_eq_take hle h₁ h₂, pairwise_step h₂⟩

/-- From the first of some paths fewer places lead to no path that more
places do not lead to from all of them. -/
theorem subset_step {step : Nat} (hle : narrow ≤ wide) {shared : List α}
    (hshares : p.Shares step shared) {paths paths₁ paths₂ : List (Path α)}
    (hkept : ∀ path ∈ paths, Kept p c step path)
    (hsorted : paths.Pairwise fun q q' => ranks q'.score q.score = true)
    (hone : ∀ path ∈ paths, path.sequence.claimed.length ≤ 1) (hlength : paths.length ≤ wide)
    (h₁ : Beam.step p c narrow (paths.take narrow) = .ok paths₁)
    (h₂ : Beam.step p c wide paths = .ok paths₂) : paths₁ ⊆ paths₂ := by
  have htake : ∀ path ∈ paths.take narrow, path ∈ paths := by
    intro path hpath
    exact List.mem_of_mem_take hpath
  rw [step_of_shares hshares fun path hpath => (hkept path (htake path hpath)).length] at h₁
  rw [step_of_shares hshares fun path hpath => (hkept path hpath).length] at h₂
  have hsubset : survivors narrow (offers c shared (paths.take narrow)) ⊆
      survivors wide (offers c shared paths) := by
    rcases Nat.lt_or_ge narrow paths.length with hlt | hge
    · have hsplit := List.take_append_drop narrow paths
      have hmore : narrow + (paths.drop narrow).length ≤ wide := by
        rw [List.length_drop]
        omega
      have hkeeps := survivors_subset (c := c) hshares.nonpos
        (fun path hpath => (hkept path (hsplit ▸ hpath)).nonpos) (hsplit.symm ▸ hsorted)
        (fun path hpath => hone path (htake path hpath))
        (List.length_take_of_le (Nat.le_of_lt hlt)) hmore
      rwa [hsplit] at hkeeps
    · rw [List.take_of_length_le hge, survivors_eq_take, survivors_eq_take]
      exact List.take_subset_take_left _ hle
  intro q hq
  obtain ⟨e, he, hfollow⟩ := exists_of_mem_mapM h₁ hq
  obtain ⟨q', hmem, hfollow'⟩ := exists_mem_zip (forall₂_of_mapM h₂) (hsubset he)
  obtain rfl : q = q' := Except.ok.inj (hfollow.symm.trans hfollow')
  exact (List.of_mem_zip hmem).2

/-- Up to two steps the wider search has all paths of the narrower one. -/
theorem subset_of_le_two (hfree : p.HistoryFree) (hmass : p.AlwaysMass) (hwide : 0 < wide)
    (hle : narrow ≤ wide) {n : Nat} (hn : n ≤ p.numSteps) (htwo : n ≤ 2)
    {paths₁ paths₂ : List (Path α)}
    (h₁ : takeSteps (Beam.step p c narrow) n [Path.start] = .ok paths₁)
    (h₂ : takeSteps (Beam.step p c wide) n [Path.start] = .ok paths₂) : paths₁ ⊆ paths₂ := by
  rcases (by omega : n = 0 ∨ n = 1 ∨ n = 2) with rfl | rfl | rfl
  · cases h₁
    cases h₂
    exact List.Subset.refl _
  · rw [(eq_take_of_one hle h₁ h₂).1]
    exact List.take_subset narrow paths₂
  · rw [takeSteps_succ] at h₁ h₂
    obtain ⟨first₁, hfirst₁, h₁⟩ := bind_eq_ok_iff.mp h₁
    obtain ⟨first₂, hfirst₂, h₂⟩ := bind_eq_ok_iff.mp h₂
    obtain ⟨shared, hshares⟩ := Position.exists_shares hfree hmass hn
    obtain ⟨rfl, hsorted⟩ := eq_take_of_one hle hfirst₁ hfirst₂
    have hkept := kept_takeSteps hfirst₂
    obtain ⟨paths, hpaths, hlength⟩ := exists_takeSteps (c := c) hmass hwide (Nat.le_of_succ_le hn)
    obtain rfl : first₂ = paths := Except.ok.inj (hfirst₂.symm.trans hpaths)
    refine subset_step hle hshares hkept hsorted ?_ hlength h₁ h₂
    intro path hpath
    have hclaimed := Sequence.length_claimed_le path.sequence.choices
    rw [← (hkept path hpath).reached.eq_ofChoices] at hclaimed
    exact Nat.le_trans hclaimed (Nat.le_of_eq (hkept path hpath).length)

/-- Up to three steps the wider search is ahead. -/
theorem dominates_of_le_three (hfree : p.HistoryFree) (hmass : p.AlwaysMass) (hwide : 0 < wide)
    (hle : narrow ≤ wide) {n : Nat} (hn : n ≤ p.numSteps) (hthree : n ≤ 3)
    {paths₁ paths₂ : List (Path α)}
    (h₁ : takeSteps (Beam.step p c narrow) n [Path.start] = .ok paths₁)
    (h₂ : takeSteps (Beam.step p c wide) n [Path.start] = .ok paths₂) :
    Dominates paths₂ paths₁ := by
  cases n with
  | zero =>
    cases h₁
    cases h₂
    exact dominates_start
  | succ n =>
    rw [takeSteps_succ] at h₁ h₂
    obtain ⟨before₁, hbefore₁, h₁⟩ := bind_eq_ok_iff.mp h₁
    obtain ⟨before₂, hbefore₂, h₂⟩ := bind_eq_ok_iff.mp h₂
    obtain ⟨shared, hshares⟩ := Position.exists_shares hfree hmass hn
    have hkept₂ := kept_takeSteps hbefore₂
    have hsubset := subset_of_le_two hfree hmass hwide hle (Nat.le_of_succ_le hn) (by omega)
      hbefore₁ hbefore₂
    refine dominates_step hwide hshares (kept_takeSteps hbefore₁) hkept₂ ?_ h₁ h₂
    intro e he
    exact exists_le_offer_of_subset hshares hkept₂ hsubset he

/-- Where nothing is masked, or there are at most three units, what the
wider search finds is no worse.  It finds something wherever the narrower
one does, which fails only by an overflow, and only under the mask. -/
theorem search_score_mono (p : Position α) (hfree : p.HistoryFree) (hmass : p.AlwaysMass)
    (constrained : Bool)
    (hcase : (constrained = false ∨ p.units.phase = .build) ∨ p.numSteps ≤ 3) {narrow wide : Nat}
    (hnarrow : 1 ≤ narrow) (hlt : narrow < wide) (hsize : wide ≤ p.vocab.size) :
    (∀ found, Beam.search p narrow constrained = .ok found →
      ∃ found', Beam.search p wide constrained = .ok found' ∧
        found.best.score ≤ found'.best.score) ∧
    ((∃ found, Beam.search p narrow constrained = .ok found) ∨
      (constrained = true ∧ p.units.phase ≠ .build ∧
        ∃ i < p.numSteps, OverflowsAt p (p.constraint constrained) narrow i)) := by
  have hwide : 0 < wide := by omega
  rcases Nat.eq_zero_or_pos p.numSteps with hunits | hunits
  · obtain ⟨found₁, h₁, hbest₁⟩ :=
      search_of_no_units hunits hnarrow (by omega : narrow ≤ p.vocab.size) constrained
    obtain ⟨found₂, h₂, hbest₂⟩ := search_of_no_units hunits hwide hsize constrained
    refine ⟨?_, Or.inl ⟨found₁, h₁⟩⟩
    intro found h
    refine ⟨found₂, h₂, ?_⟩
    obtain rfl : found₁ = found := Except.ok.inj (h₁.symm.trans h)
    rw [hbest₁, hbest₂]
    exact zero_le_zero
  obtain ⟨paths₁, h₁, -⟩ :=
    exists_takeSteps (c := p.constraint constrained) hmass hnarrow (Nat.le_refl p.numSteps)
  obtain ⟨paths₂, h₂, -⟩ :=
    exists_takeSteps (c := p.constraint constrained) hmass hwide (Nat.le_refl p.numSteps)
  have hdominates : Dominates paths₂ paths₁ := by
    rcases hcase with hopen | hthree
    · exact dominates_of_open hfree hmass hwide hopen (Nat.le_refl _) h₁ h₂
    · exact dominates_of_le_three hfree hmass hwide (Nat.le_of_lt hlt) (Nat.le_refl _) hthree h₁ h₂
  constructor
  · intro found h
    exact exists_search_of_dominates hunits hnarrow hlt hsize h₁ h₂ hdominates h
  · have hnil := eq_nil_iff_overflowsAt hnarrow h₁
    have hsearch := search_of_takeSteps hunits hnarrow (by omega) h₁
    cases paths₁ with
    | cons first others => exact Or.inl ⟨_, hsearch⟩
    | nil =>
      obtain ⟨i, hi, hover⟩ := hnil.mp rfl
      refine Or.inr ⟨?_, ?_, i, hi, hover⟩
      · cases constrained with
        | true => rfl
        | false => exact absurd hover (not_overflowsAt_of_open (Or.inl rfl))
      · intro hphase
        exact not_overflowsAt_of_open (Or.inr hphase) hover

end Beam

/-- Three units, the first of which may go to area 1 or, less gladly, to
area 2, and the second to area 1. -/
def yielding : Position Stark :=
  Stark.position 3
    [Stark.row 13 [(11, 0), (12, -50)], Stark.row 13 [(11, 0), (0, -200)], Stark.row 13 [(0, 0)]]

theorem alwaysMass_yielding : yielding.AlwaysMass :=
  Position.alwaysMass_table rfl (by decide) (by decide +kernel)

/-- With one place area 1 is taken at once, and the second unit stays; a
second place keeps the path on which it does not have to. -/
theorem yielding_score_mono :
    (yielding.HistoryFree ∧ yielding.AlwaysMass ∧ yielding.numSteps ≤ 3 ∧ 2 ≤ yielding.vocab.size) ∧
    ∃ found₁ found₂, Beam.search yielding 1 true = .ok found₁ ∧
      Beam.search yielding 2 true = .ok found₂ ∧ found₁.best.score ≤ found₂.best.score ∧
      found₁.best.score = (-200 : Float) ∧ found₂.best.score = (-50 : Float) := by
  have hfree : yielding.HistoryFree := Position.historyFree_table rfl
  have hnarrow : (Beam.search yielding 1 true >>= fun found => .ok found.best.score)
      = .ok (-200 : Float) := by decide +kernel
  have hwide : (Beam.search yielding 2 true >>= fun found => .ok found.best.score)
      = .ok (-50 : Float) := by decide +kernel
  obtain ⟨found₁, h₁, hscore₁⟩ := bind_eq_ok_iff.mp hnarrow
  obtain ⟨found₂, h₂, hscore₂⟩ := bind_eq_ok_iff.mp hwide
  obtain ⟨hmono, -⟩ := Beam.search_score_mono yielding hfree alwaysMass_yielding true
    (Or.inr (by decide)) (Nat.le_refl 1) (by decide : 1 < 2) (by decide)
  obtain ⟨found₂', h₂', hle⟩ := hmono found₁ h₁
  obtain rfl : found₂ = found₂' := Except.ok.inj (h₂.symm.trans h₂')
  exact ⟨⟨hfree, alwaysMass_yielding, by decide, by decide⟩, found₁, found₂, h₁, h₂, hle,
    Except.ok.inj hscore₁, Except.ok.inj hscore₂⟩

/-- Four units, the first of which may go to area 1 or, less gladly, to
area 2, the second to area 1, and the last to area 2. -/
def detour : Position Stark :=
  Stark.position 4
    [Stark.row 15 [(12, 0), (13, -50)], Stark.row 15 [(12, 0), (0, -200)],
      Stark.row 15 [(0, 0), (3, -50)], Stark.row 15 [(13, 0), (0, -1000)]]

theorem alwaysMass_detour : detour.AlwaysMass :=
  Position.alwaysMass_table rfl (by decide) (by decide +kernel)

/-- With two places the path that leaves area 1 to the second unit is ahead
after two steps and fills both places at the third.  Then it has nowhere to
send the last unit, and the path that could is gone.  One place is enough
to keep that one, and it does better. -/
theorem detour_not_mono :
    (detour.HistoryFree ∧ detour.AlwaysMass ∧ 2 ≤ detour.vocab.size) ∧
    ∃ found₁ found₂, Beam.search detour 1 true = .ok found₁ ∧
      Beam.search detour 2 true = .ok found₂ ∧ ¬ found₁.best.score ≤ found₂.best.score := by
  refine ⟨⟨Position.historyFree_table rfl, alwaysMass_detour, by decide⟩, ?_⟩
  have hnarrow : (Beam.search detour 1 true >>= fun found => .ok found.best.score)
      = .ok (-200 : Float) := by decide +kernel
  have hwide : (Beam.search detour 2 true >>= fun found => .ok found.best.score)
      = .ok (-1050 : Float) := by decide +kernel
  obtain ⟨found₁, h₁, hscore₁⟩ := bind_eq_ok_iff.mp hnarrow
  obtain ⟨found₂, h₂, hscore₂⟩ := bind_eq_ok_iff.mp hwide
  refine ⟨found₁, found₂, h₁, h₂, ?_⟩
  rw [Except.ok.inj hscore₁, Except.ok.inj hscore₂]
  exact show ¬ (-200 : Float) ≤ -1050 by decide +kernel

end OrderDecoding
