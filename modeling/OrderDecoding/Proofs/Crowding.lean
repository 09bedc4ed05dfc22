/-
# `Proofs.Crowding` — what a wider search keeps

A search with more places should keep whatever one with fewer keeps.  It
does so where all paths share a row, the wider search has the paths of the
narrower one and worse ones besides, at most as many as it has additional
places, and a path of the narrower one has one entry masked at most
(`survivors_subset`).

This is a pigeonhole argument.  If a survivor of the narrower search were
dropped, there would be more better extensions of additional paths than
there are such paths, so two of the same one.  Each path of the narrower
search is better and has one of the two entries open as well, and its
extension by that entry is a better one, too (`exists_before_in_block`).
That makes one for each place of the narrower search, which would not have
kept the survivor either.
-/
import OrderDecoding.Proofs.Sharing

namespace OrderDecoding

open Score LawfulScore

namespace Beam

variable {α : Type} [Score α] [LawfulScore α]

/-- An extension of a later path by an entry that an earlier path has open:
the earlier path's extension by it comes before. -/
theorem before_of_open {c : Constraint} {shared : List α} {paths : List (Path α)}
    (hshared : ∀ x ∈ shared, x ≤ 0) (hnonpos : ∀ path ∈ paths, path.score ≤ 0)
    (hsorted : paths.Pairwise fun q q' => ranks q'.score q.score = true) {m m' a : Nat}
    (hm : m' < m) {path path' : Path α} {x : α} (hpath : paths[m]? = some path)
    (hpath' : paths[m']? = some path')
    (hx : (c.constrain path.sequence shared).row[a]? = some x) (hopen : shared[a]? = some x)
    (hleft : a ∉ c.targets path'.sequence shared.length) :
    Row.Before ((offers c shared paths).map (·.score)) (m' * shared.length + a)
      (m * shared.length + a) := by
  have ha : a < shared.length := (List.getElem?_eq_some_iff.mp hopen).1
  have hx' : (c.constrain path'.sequence shared).row[a]? = some x := by
    rw [Constraint.getElem?_constrain_of_not_target hleft, hopen]
  have hlt : m' * shared.length + a < m * shared.length + a :=
    Nat.add_lt_add_right (Nat.mul_lt_mul_of_pos_right hm (Nat.zero_lt_of_lt ha)) a
  have hrank : ranks path.score path'.score = true := by
    obtain ⟨hi, rfl⟩ := List.getElem?_eq_some_iff.mp hpath
    obtain ⟨hi', rfl⟩ := List.getElem?_eq_some_iff.mp hpath'
    exact List.pairwise_iff_getElem.mp hsorted m' m hi' hi hm
  have hscore (q : Path α) (i : Nat) (hq : paths[i]? = some q) : q.score < posInf :=
    lt_posInf_of_nonpos (hnonpos q (List.mem_of_getElem? hq))
  refine ⟨_, _, getElem?_scores (getElem?_offers hpath' hx'),
    getElem?_scores (getElem?_offers hpath hx), Nat.ne_of_lt hlt, Row.outranks_iff.mpr ⟨?_, ?_⟩⟩
  · exact ranks_add hrank (hscore path m hpath) (hscore path' m' hpath')
      (lt_posInf_of_nonpos (hshared x (List.mem_of_getElem? hopen)))
  · exact fun _ => Nat.le_of_lt hlt

/-- What comes before an extension that is not masked is not masked either,
in its own row or in the shared one. -/
theorem exists_open_of_before {c : Constraint} {shared : List α} {paths : List (Path α)}
    (hshared : ∀ x ∈ shared, x ≤ 0) (hnonpos : ∀ path ∈ paths, path.score ≤ 0) {i j : Nat}
    {e : Extension α} (hi : (offers c shared paths)[i]? = some e) (hopen : ¬ e.score ≤ negInf)
    (hbefore : Row.Before ((offers c shared paths).map (·.score)) j i) :
    ∃ m a path x, j = m * shared.length + a ∧ a < shared.length ∧ paths[m]? = some path ∧
      (c.constrain path.sequence shared).row[a]? = some x ∧ shared[a]? = some x := by
  have hscore (q : Extension α) (k : Nat) (hq : (offers c shared paths)[k]? = some q) :
      q.score < posInf :=
    lt_posInf_of_nonpos (offers_nonpos hshared hnonpos q (List.mem_of_getElem? hq))
  obtain ⟨y, z, hy, hz, -, hrank⟩ := hbefore
  rw [List.getElem?_map] at hy
  obtain ⟨e', he', rfl⟩ := Option.map_eq_some_iff.mp hy
  rw [getElem?_scores hi, Option.some.injEq] at hz
  subst hz
  obtain ⟨m, a, path, x, rfl, ha, hpath, hx, hsum⟩ := exists_of_getElem?_offers he'
  have hle : e.score ≤ e'.score := le_of_ranks (self_le_of_lt_posInf (hscore e i hi))
    (self_le_of_lt_posInf (hscore e' _ he')) (Row.outranks_iff.mp hrank).1
  refine ⟨m, a, path, x, rfl, ha, hpath, hx, (Constraint.getElem?_constrain hx).1.resolve_left ?_⟩
  rintro rfl
  have hpathscore := lt_posInf_of_nonpos (hnonpos path (List.mem_of_getElem? hpath))
  rw [hsum, add_negInf hpathscore] at hle
  exact hopen hle

/-- Two extensions of one path come before a third: so does one of every
earlier path that has one entry masked at most. -/
theorem exists_before_in_block {c : Constraint} {shared : List α} {paths : List (Path α)}
    (hshared : ∀ x ∈ shared, x ≤ 0) (hnonpos : ∀ path ∈ paths, path.score ≤ 0)
    (hsorted : paths.Pairwise fun q q' => ranks q'.score q.score = true) {i j j' m' : Nat}
    {e : Extension α} (hi : (offers c shared paths)[i]? = some e) (hopen : ¬ e.score ≤ negInf)
    (hne : j ≠ j') (hsame : j / shared.length = j' / shared.length)
    (hbefore : Row.Before ((offers c shared paths).map (·.score)) j i)
    (hbefore' : Row.Before ((offers c shared paths).map (·.score)) j' i)
    (hm : m' < j / shared.length) {path' : Path α} (hpath' : paths[m']? = some path')
    (hone : path'.sequence.claimed.length ≤ 1) :
    ∃ b < shared.length,
      Row.Before ((offers c shared paths).map (·.score)) (m' * shared.length + b) i := by
  obtain ⟨m, a, path, x, rfl, ha, hpath, hx, hxopen⟩ :=
    exists_open_of_before hshared hnonpos hi hopen hbefore
  obtain ⟨m₂, a₂, path₂, x₂, rfl, ha₂, hpath₂, hx₂, hxopen₂⟩ :=
    exists_open_of_before hshared hnonpos hi hopen hbefore'
  rw [Row.block_div ha, Row.block_div ha₂] at hsame
  rw [Row.block_div ha] at hm
  subst hsame
  obtain rfl : path = path₂ := Option.some.inj (hpath.symm.trans hpath₂)
  have hne : a ≠ a₂ := by
    rintro rfl
    exact hne rfl
  rcases Constraint.exists_not_mem_targets (c := c) hone hne shared.length with hleft | hleft
  · exact ⟨a, ha,
      (before_of_open hshared hnonpos hsorted hm hpath hpath' hx hxopen hleft).trans hbefore⟩
  · exact ⟨a₂, ha₂,
      (before_of_open hshared hnonpos hsorted hm hpath hpath' hx₂ hxopen₂ hleft).trans hbefore'⟩

/-- With as many more places as there are more paths, survivors stay
survivors, as long as a path has one entry masked at most. -/
theorem survivors_subset {c : Constraint} {shared : List α} {paths more : List (Path α)}
    {narrow wide : Nat} (hshared : ∀ x ∈ shared, x ≤ 0)
    (hnonpos : ∀ path ∈ paths ++ more, path.score ≤ 0)
    (hsorted : (paths ++ more).Pairwise fun q q' => ranks q'.score q.score = true)
    (hone : ∀ path ∈ paths, path.sequence.claimed.length ≤ 1) (hfull : paths.length = narrow)
    (hmore : narrow + more.length ≤ wide) :
    survivors narrow (offers c shared paths) ⊆
      survivors wide (offers c shared (paths ++ more)) := by
  intro e he
  have hnonpos₁ : ∀ path ∈ paths, path.score ≤ 0 := by
    intro path hpath
    exact hnonpos path (List.mem_append_left more hpath)
  have hvalid₁ : ∀ e ∈ offers c shared paths, e.score < posInf := by
    intro e he
    exact lt_posInf_of_nonpos (offers_nonpos hshared hnonpos₁ e he)
  have hvalid₂ : ∀ e ∈ offers c shared (paths ++ more), e.score < posInf := by
    intro e he
    exact lt_posInf_of_nonpos (offers_nonpos hshared hnonpos e he)
  obtain ⟨i, hi, hplace, hopen⟩ := (mem_survivors_iff hvalid₁).mp he
  have hlt := (List.getElem?_eq_some_iff.mp hi).1
  have hi₂ : (offers c shared (paths ++ more))[i]? = some e := by
    rw [offers_append, List.getElem?_append_left hlt, hi]
  by_contra hout
  have hplace₂ : i ∉ Row.topK ((offers c shared (paths ++ more)).map (·.score)) wide := by
    intro hmem
    exact hout ((mem_survivors_iff hvalid₂).mpr ⟨i, hi₂, hmem, hopen⟩)
  have hscores : (offers c shared (paths ++ more)).map (·.score) =
      (offers c shared paths).map (·.score) ++ (offers c shared more).map (·.score) := by
    rw [offers_append, List.map_append]
  have hlength : ((offers c shared paths).map (·.score)).length = narrow * shared.length := by
    rw [List.length_map, length_offers, hfull]
  have hlength₂ : ((offers c shared (paths ++ more)).map (·.score)).length
      ≤ wide * shared.length := by
    rw [List.length_map, length_offers, List.length_append, hfull]
    exact Nat.mul_le_mul_right _ hmore
  rw [hscores] at hplace₂ hlength₂
  -- two better extensions are of the same path, which only the wider search has
  obtain ⟨m, hm, j, j', hne, rfl, hj', hbefore, hbefore'⟩ :=
    Row.exists_same_block hlength hlength₂ (by rwa [List.length_map]) hplace hplace₂
  rw [← hscores] at hbefore hbefore'
  have hblocks : ∀ m' < narrow, ∃ k, k / shared.length = m' ∧
      Row.Before ((offers c shared paths).map (·.score)) k i := by
    intro m' hm'
    have hlt' : m' < paths.length := hfull ▸ hm'
    have hearlier : (paths ++ more)[m']? = some paths[m'] := by
      rw [List.getElem?_append_left hlt', List.getElem?_eq_getElem hlt']
    obtain ⟨b, hb, hbetter⟩ := exists_before_in_block hshared hnonpos hsorted hi₂ hopen hne
      hj'.symm hbefore hbefore' (Nat.lt_of_lt_of_le hm' hm) hearlier
      (hone _ (List.getElem_mem hlt'))
    rw [hscores] at hbetter
    refine ⟨_, Row.block_div hb, Row.before_of_append ?_ (by rwa [List.length_map]) hbetter⟩
    rw [hlength]
    exact Row.block_lt hm' hb
  exact Row.not_mem_topK_of_blocks hblocks hplace

end Beam
end OrderDecoding
