/-
# `Proofs.Frontier` — no two paths of a search are the same

The paths that a beam search goes on with differ in the entries they have
chosen.  They start as one; a step extends each by every entry of its row,
and two extensions that agree in all entries are of the same path by the
same entry (`nodup_flatMap_extensions`); and every extension has one place
in the ranking (`nodup_survivors`).  So a search never returns the same
candidate twice (`nodup_signature_search`), unless there are no units and
every place holds the empty one.
-/
import OrderDecoding.Proofs.Survival

namespace OrderDecoding

theorem Sequence.indices_push (s : Sequence) (c : Choice) :
    (s.push c).indices = s.indices ++ [c.index] := by
  rw [indices, choices_push, List.map_append]
  rfl

namespace Beam

variable {α : Type}

/-- The entries that are chosen on a path. -/
def pathIndices (path : Path α) : List Nat := path.sequence.indices

/-- The entries that are chosen on the path which an extension stands
for. -/
def Extension.indices (e : Extension α) : List Nat := pathIndices e.parent ++ [e.index]

theorem Extension.indices_eq_iff {e e' : Extension α} :
    e.indices = e'.indices ↔ pathIndices e.parent = pathIndices e'.parent ∧ e.index = e'.index := by
  refine ⟨fun h => ?_, fun ⟨hparent, hindex⟩ => by rw [indices, indices, hparent, hindex]⟩
  obtain ⟨hparent, hlast⟩ := List.append_inj' h rfl
  exact ⟨hparent, List.head_eq_of_cons_eq hlast⟩

theorem pathIndices_of_follow {p : Position α} {e : Extension α} {path : Path α}
    (h : follow p e = .ok path) : pathIndices path = e.indices := by
  obtain ⟨choice, hchoose, h⟩ := bind_eq_ok_iff.mp h
  cases h
  rw [pathIndices, Path.extend, Sequence.indices_push, Position.index_of_choose hchoose]
  rfl

variable [Score α]

/-! ## Extensions -/

theorem nodup_extensions (path : Path α) (row : List α) :
    ((extensions path row).map Extension.indices).Nodup := by
  have hindex : (extensions path row).map Extension.indices =
      (List.range' 0 row.length).map fun i => pathIndices path ++ [i] := by
    rw [← List.zipIdx_map_snd 0 row, extensions, List.map_map, List.map_map]
    rfl
  rw [hindex]
  refine List.Nodup.map (fun i j hij => ?_) List.nodup_range'
  exact List.head_eq_of_cons_eq (List.append_inj' hij rfl).2

/-- Paths that differ have extensions that differ. -/
theorem nodup_flatMap_extensions {paths : List (Path α)} (rows : List (List α))
    (h : (paths.map pathIndices).Nodup) :
    (((paths.zip rows).flatMap fun pr => extensions pr.1 pr.2).map Extension.indices).Nodup := by
  induction paths generalizing rows with
  | nil => exact List.nodup_nil
  | cons path paths ih =>
    obtain ⟨hnew, hrest⟩ := List.nodup_cons.mp h
    cases rows with
    | nil => exact List.nodup_nil
    | cons row rows =>
      rw [List.zip_cons_cons, List.flatMap_cons, List.map_append]
      refine List.nodup_append.mpr ⟨nodup_extensions path row, ih rows hrest, ?_⟩
      rintro s hs s' hs' rfl
      obtain ⟨e, he, rfl⟩ := List.mem_map.mp hs
      obtain ⟨e', he', hsame⟩ := List.mem_map.mp hs'
      obtain ⟨⟨path', row'⟩, hpr, he'⟩ := List.mem_flatMap.mp he'
      obtain ⟨hparent, -⟩ := mem_extensions_iff.mp he
      obtain ⟨hparent', -⟩ := mem_extensions_iff.mp he'
      have hpath := (Extension.indices_eq_iff.mp hsame).1
      rw [hparent, hparent'] at hpath
      exact hnew (List.mem_map.mpr ⟨path', (List.of_mem_zip hpr).1, hpath⟩)

/-! ## Steps -/

variable [LawfulScore α]

theorem nodup_survivors (width : Nat) {all : List (Extension α)}
    (h : (all.map Extension.indices).Nodup) :
    ((survivors width all).map Extension.indices).Nodup := by
  have hsublist : ((survivors width all).map Extension.indices).Sublist
      ((placed width all).map Extension.indices) :=
    (List.takeWhile_sublist _).map _
  refine hsublist.nodup ?_
  rw [placed, List.map_filterMap]
  refine Row.nodup_topK.filterMap fun i j s hi hj => ?_
  obtain ⟨e, he, rfl⟩ := Option.map_eq_some_iff.mp hi
  obtain ⟨e', he', hsame⟩ := Option.map_eq_some_iff.mp hj
  have hlt : i < (all.map Extension.indices).length := by
    rw [List.length_map]
    exact (List.getElem?_eq_some_iff.mp he).1
  refine (List.getElem?_inj hlt h).mp ?_
  rw [List.getElem?_map, List.getElem?_map, he, he', Option.map_some, Option.map_some, hsame]

theorem nodup_step {p : Position α} {c : Constraint} {width : Nat} {paths paths' : List (Path α)}
    (h : (paths.map pathIndices).Nodup) (hstep : Beam.step p c width paths = .ok paths') :
    (paths'.map pathIndices).Nodup := by
  obtain ⟨rows, -, hfollow⟩ := step_eq_ok_iff.mp hstep
  rw [map_eq_of_mapM (fun _ _ => pathIndices_of_follow) hfollow]
  exact nodup_survivors width (nodup_flatMap_extensions rows h)

/-- No two paths of a search are the same. -/
theorem nodup_takeSteps {p : Position α} {c : Constraint} {width n : Nat} {paths : List (Path α)}
    (h : takeSteps (Beam.step p c width) n [Path.start] = .ok paths) :
    (paths.map pathIndices).Nodup := by
  have hstart : (([Path.start] : List (Path α)).map pathIndices).Nodup := List.nodup_singleton _
  exact takeSteps_invariant
    (fun _ (paths : List (Path α)) => (paths.map pathIndices).Nodup)
    (fun _ _ _ _ hs hstep => nodup_step hs hstep) hstart h

/-! ## Searches -/

omit [LawfulScore α] in
/-- The candidates of a search are its paths after all steps. -/
theorem search_eq_ok_iff {p : Position α} (hunits : 0 < p.numSteps) {width : Nat}
    {constrained : Bool} {found : Found α} :
    Beam.search p width constrained = .ok found ↔ (1 ≤ width ∧ width ≤ p.vocab.size) ∧
      ∃ paths, takeSteps (Beam.step p (p.constraint constrained) width) p.numSteps [Path.start]
        = .ok paths ∧ found.candidates = paths.map candidate ∧
        found.candidates.head? = some found.best := by
  constructor
  · intro h
    by_cases hsize : width = 0 ∨ p.vocab.size < width
    · rw [Beam.search, if_pos hsize] at h
      cases h
    have hwidth : 1 ≤ width ∧ width ≤ p.vocab.size := by omega
    rw [Beam.search, if_neg hsize, if_neg (Nat.ne_of_gt hunits)] at h
    obtain ⟨paths, hpaths, h⟩ := bind_eq_ok_iff.mp h
    refine ⟨hwidth, paths, hpaths, ?_⟩
    cases paths with
    | nil => cases h
    | cons best rest =>
      cases h
      exact ⟨rfl, rfl⟩
  · rintro ⟨⟨hwidth, hsize⟩, paths, hpaths, hcandidates, hhead⟩
    rw [search_of_takeSteps hunits hwidth hsize hpaths]
    obtain ⟨first, all⟩ := found
    obtain rfl : all = paths.map candidate := hcandidates
    cases paths with
    | nil => cases hhead
    | cons best rest =>
      cases hhead
      rfl

theorem nodup_signature_search {p : Position α} (hunits : 0 < p.numSteps) {width : Nat}
    {constrained : Bool} {found : Found α} (h : Beam.search p width constrained = .ok found) :
    (found.candidates.map Candidate.signature).Nodup := by
  obtain ⟨-, paths, hpaths, hcandidates, -⟩ := (search_eq_ok_iff hunits).mp h
  rw [hcandidates, List.map_map]
  exact nodup_takeSteps hpaths

theorem length_search_le {p : Position α} (hunits : 0 < p.numSteps) {width : Nat}
    {constrained : Bool} {found : Found α} (h : Beam.search p width constrained = .ok found) :
    found.candidates.length ≤ width := by
  obtain ⟨⟨hwidth, -⟩, paths, hpaths, hcandidates, -⟩ := (search_eq_ok_iff hunits).mp h
  rw [hcandidates, List.length_map]
  exact length_takeSteps_le hwidth hpaths

end Beam
end OrderDecoding
