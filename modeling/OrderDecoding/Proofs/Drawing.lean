/-
# `Proofs.Drawing` — what a draw gives, and when it gives nothing

A draw goes through four stages: the row is divided by the temperature, cut
to its best entries, turned into weights, and one of the weights is picked.
Each stage is told here by what the next one needs of it.  The cut keeps
an entry that fewer than `k` others are larger than; the softmax gives
weights to pick from wherever an entry is above `-∞` (`drawable_softmax`),
and no weight to a masked one; and a pick comes to an answer as long as one
weight is positive, whatever number was drawn (`pick_eq_none_iff`).

So what is drawn is among the best `k` of the divided row
(`draw_among_best`).  And a draw gives nothing exactly if the DIVIDED row has
nothing above `-∞`, which is not the same as the row having nothing: a
temperature below one makes scores larger, and can make each of them larger
than any float (`Sunk`).
-/
import OrderDecoding.Proofs.Picking
import OrderDecoding.Proofs.Retaining
import OrderDecoding.Proofs.Stark

namespace OrderDecoding
namespace Row

open Score LawfulScore LawfulQuotient

variable {α : Type} [Score α] {row : List α}

/-! ## Picking -/

section

variable {β : Type} [Zero β] [Add β] [LT β] [LE β] [DecidableLT β] [DecidableLE β]

theorem pickFrom_eq_none_iff {r covered : β} {last : Option Nat} {weights : List (β × Nat)} :
    pickFrom r covered last weights = none ↔ last = none ∧ ∀ e ∈ weights, e.1 ≤ 0 := by
  induction weights generalizing covered last with
  | nil => simp [pickFrom]
  | cons entry rest ih =>
    obtain ⟨w, i⟩ := entry
    rw [pickFrom, List.forall_mem_cons]
    by_cases hw : w ≤ 0
    · rw [if_pos hw, ih]
      simp only [hw, true_and]
    · rw [if_neg hw]
      refine iff_of_false ?_ fun h => hw h.2.1
      split
      · exact Option.some_ne_none i
      · rw [ih]
        exact fun h => Option.some_ne_none i h.1

/-- A pick gives nothing only if there is no weight, whatever number was
drawn. -/
theorem pick_eq_none_iff {weights : List β} {r : β} :
    pick weights r = none ↔ ∀ w ∈ weights, w ≤ 0 := by
  rw [pick, pickFrom_eq_none_iff]
  refine (and_iff_right rfl).trans ⟨fun h w hw => ?_, fun h e he => ?_⟩
  · obtain ⟨i, hi⟩ := List.mem_iff_getElem?.mp hw
    exact h (w, i) (List.mem_zipIdx_iff_getElem?.mpr hi)
  · exact h e.1 (List.mem_of_getElem? (List.mem_zipIdx_iff_getElem?.mp he))

end

/-- Weights to pick from: none below zero or above one, and not all zero. -/
structure Drawable (weights : List α) : Prop where
  unit : ∀ w ∈ weights, 0 ≤ w ∧ w ≤ 1
  positive : ∃ w ∈ weights, 0 < w

variable [LawfulScore α]

theorem Drawable.exists_weightedSample {weights : List α} (h : Drawable weights) (g : Generator) :
    ∃ i g', weightedSample weights g = (some i, g') := by
  have hfinite : weights.all isFinite = true := by
    refine List.all_eq_true.mpr fun w hw => isFinite_iff.mpr ?_
    obtain ⟨hzero, hone⟩ := h.unit w hw
    exact ⟨lt_of_lt_of_le negInf_lt_zero hzero, lt_of_le_of_lt hone one_lt_posInf⟩
  obtain ⟨⟨r, g'⟩, hdraw⟩ : ∃ drawn, g.nextUnit (α := α) = drawn := ⟨_, rfl⟩
  cases hpick : pick weights r with
  | none =>
    obtain ⟨w, hw, hpos⟩ := h.positive
    exact absurd (pick_eq_none_iff.mp hpick w hw) (not_le_of_lt hpos)
  | some i =>
    refine ⟨i, g', ?_⟩
    rw [weightedSample, if_pos hfinite, hdraw]
    exact congrArg (·, g') hpick

/-! ## Weights -/

theorem softmax_eq_none_iff (hnum : Numbers row) : softmax row = none ↔ hasMass row = false := by
  rw [← Bool.not_eq_true, ← negInf_lt_maximum_iff hnum]
  by_cases hmass : maximum row ≤ negInf
  · rw [softmax, if_pos hmass]
    exact iff_of_true rfl fun hlt => not_le_of_lt hlt hmass
  · rw [softmax, if_neg hmass]
    refine iff_of_false ?_ fun hnot => hnot (negInf_lt (maximum_self row) hmass)
    split <;> exact Option.some_ne_none _

variable [LawfulQuotient α]

theorem zero_le_div {w z : α} (hw : 0 ≤ w) (hlt : w < posInf) (hz : 1 ≤ z) (hzlt : z < posInf) :
    0 ≤ w / z := by
  have hpos : 0 < z := lt_of_lt_of_le zero_lt_one hz
  have := div_le_div_right hw hlt hpos hzlt
  rwa [zero_div hpos hzlt] at this

/-- Equal shares of the entries at `+∞` can be picked from as long as these
can be counted: then a share is positive. -/
theorem drawable_shares (hcount : row.countP (fun x => decide (posInf ≤ x)) < Word.bound)
    {x : α} (hx : x ∈ row) (htop : posInf ≤ x) :
    Drawable (row.map fun s =>
      if posInf ≤ s then (1 : α) / count (row.filter fun s => posInf ≤ s).length else 0) := by
  rw [← List.countP_eq_length_filter]
  set n := row.countP fun x => decide (posInf ≤ x)
  have hn : 1 ≤ n := List.countP_pos_iff.mpr ⟨x, hx, decide_eq_true htop⟩
  have hcountOne : (1 : α) ≤ count n := count_one (α := α) ▸ count_le_count hn
  have hcountLt : (count n : α) < posInf := count_lt_posInf hcount
  have hshare : (0 : α) < 1 / count n := one_div_pos hcountOne hcountLt
  refine ⟨fun w hw => ?_, ⟨1 / count n, List.mem_map.mpr ⟨x, hx, if_pos htop⟩, hshare⟩⟩
  obtain ⟨s, -, rfl⟩ := List.mem_map.mp hw
  split
  · exact ⟨le_of_lt hshare,
      div_le_self (le_of_lt zero_lt_one) one_lt_posInf hcountOne hcountLt⟩
  · exact ⟨zero_le_zero, le_of_lt zero_lt_one⟩

/-- The weights of scores can be picked from: that of the maximum is one
before they are normalised. -/
theorem drawable_weights (hvalid : Valid row) (hlow : negInf < maximum row) :
    Drawable ((row.map fun s => exp (s - maximum row)).map
      (· / total (row.map fun s => exp (s - maximum row)))) := by
  obtain ⟨hunit, hmemOne, hz, hzlt⟩ := weights_of_valid hvalid hlow
  refine ⟨fun w hw => ?_, ⟨_, List.mem_map.mpr ⟨1, hmemOne, rfl⟩, one_div_pos hz hzlt⟩⟩
  obtain ⟨v, hv, rfl⟩ := List.mem_map.mp hw
  obtain ⟨hzero, hle⟩ := hunit v hv
  have hvlt := lt_of_le_of_lt hle one_lt_posInf
  exact ⟨zero_le_div hzero hvlt hz hzlt, le_trans (div_le_self hzero hvlt hz hzlt) hle⟩

/-- What a softmax gives can be picked from. -/
theorem drawable_softmax (hnum : Numbers row) {weights : List α}
    (hcount : row.countP (fun x => decide (posInf ≤ x)) < Word.bound)
    (h : softmax row = some weights) : Drawable weights := by
  by_cases hmass : maximum row ≤ negInf
  · rw [softmax, if_pos hmass] at h
    cases h
  have hlow := negInf_lt (maximum_self row) hmass
  by_cases htop : posInf ≤ maximum row
  · rw [softmax, if_neg hmass, if_pos htop] at h
    cases h
    exact drawable_shares hcount (maximum_mem hnum hlow) htop
  · rw [softmax, if_neg hmass, if_neg htop] at h
    cases h
    have hlt := lt_of_not_le (maximum_self row) (le_self_right (le_of_lt one_lt_posInf)) htop
    exact drawable_weights (fun x hx => lt_of_le_of_lt (le_maximum hnum hx) hlt) hlow

/-! ## Dividing by the temperature -/

omit [LawfulScore α] [LawfulQuotient α] in
/-- A row divided by a temperature, the way a draw divides it. -/
def tempered (row : List α) (temperature : α) : List α :=
  row.map (· / clampTemperature temperature)

omit [LawfulScore α] [LawfulQuotient α] in
theorem getElem?_tempered_iff {temperature y : α} {i : Nat} :
    (tempered row temperature)[i]? = some y ↔
      ∃ x, row[i]? = some x ∧ x / clampTemperature temperature = y := by
  rw [tempered, List.getElem?_map, Option.map_eq_some_iff]

/-- A row that has something to choose until it is divided by the
temperature. -/
structure Sunk (row : List α) (temperature : α) : Prop where
  mass : hasMass row = true
  lost : ∀ x ∈ row, x / clampTemperature temperature = negInf

variable {temperature : α}

theorem clampTemperature_pos (temperature : α) : 0 < clampTemperature temperature := by
  unfold clampTemperature
  split
  · next h => exact lt_of_lt_of_le zero_lt_minTemperature (le_of_lt h)
  · exact zero_lt_minTemperature

theorem scale_eq_tempered (row : List α) (temperature : α) :
    scale row (clampTemperature temperature) = tempered row temperature :=
  if_pos (clampTemperature_pos temperature)

theorem div_clamp_le {x y : α} (hxy : x ≤ y) (hy : y < posInf) (ht : temperature < posInf) :
    x / clampTemperature temperature ≤ y / clampTemperature temperature :=
  div_le_div_right hxy hy (clampTemperature_pos _) (clampTemperature_lt_posInf ht)

theorem numbers_tempered (hvalid : Valid row) (ht : temperature < posInf) :
    Numbers (tempered row temperature) := by
  intro y hy
  obtain ⟨x, hx, rfl⟩ := List.mem_map.mp hy
  exact div_clamp_le (hvalid.numbers x hx) (hvalid x hx) ht

theorem negInf_lt_of_tempered {x : α} (hx : x ≤ x) (ht : temperature < posInf)
    (h : negInf < x / clampTemperature temperature) : negInf < x := by
  refine negInf_lt hx fun hle => ?_
  rw [eq_negInf hle, negInf_div (clampTemperature_pos _) (clampTemperature_lt_posInf ht)] at h
  exact lt_irrefl h

/-- The divided row has nothing to choose if the row has not, or if the row
sinks. -/
theorem hasMass_tempered_eq_false_iff (hvalid : Valid row) (ht : temperature < posInf) :
    hasMass (tempered row temperature) = false ↔
      (∀ x ∈ row, x = negInf) ∨ Sunk row temperature := by
  rw [hasMass_eq_false_iff (numbers_tempered hvalid ht), tempered, List.forall_mem_map]
  constructor
  · intro hlost
    cases hmass : hasMass row with
    | false => exact Or.inl ((hasMass_eq_false_iff hvalid.numbers).mp hmass)
    | true => exact Or.inr ⟨hmass, hlost⟩
  · rintro (hmasked | hsunk) x hx
    · rw [hmasked x hx, negInf_div (clampTemperature_pos _) (clampTemperature_lt_posInf ht)]
    · exact hsunk.lost x hx

/-- A score that is not below zero does not sink. -/
theorem Sunk.neg (h : Sunk row temperature) (hvalid : Valid row) (ht : temperature < posInf) :
    ∀ x ∈ row, ¬ 0 ≤ x := by
  intro x hx hzero
  have hpos := div_clamp_le hzero (hvalid x hx) ht
  rw [zero_div (clampTemperature_pos _) (clampTemperature_lt_posInf ht), h.lost x hx] at hpos
  exact not_le_of_lt negInf_lt_zero hpos

/-- No row sinks at a temperature that does not make scores larger. -/
theorem Sunk.lt_one (h : Sunk row temperature) (hvalid : Valid row) (ht : temperature < posInf) :
    ¬ 1 ≤ clampTemperature temperature := by
  intro hone
  obtain ⟨i, x, hx, hopen⟩ := hasMass_iff.mp h.mass
  have hmem := List.mem_of_getElem? hx
  have hneg : x ≤ 0 :=
    (le_or_le (hvalid.numbers x hmem) zero_le_zero).resolve_right (h.neg hvalid ht x hmem)
  have hlow := le_div_self hneg hone (clampTemperature_lt_posInf ht)
  rw [h.lost x hmem] at hlow
  exact not_le_of_lt hopen hlow

/-! ## Drawing -/

/-- What is drawn was left by the cut. -/
theorem stays_of_draw {k i : Nat} {g g' : Generator} (hvalid : Valid row)
    (ht : temperature < posInf) (h : draw row temperature k g = (some i, g')) :
    ∃ x, row[i]? = some x ∧ negInf < x ∧
      Stays (tempered row temperature) k (x / clampTemperature temperature) := by
  have hnum := numbers_tempered hvalid ht
  obtain ⟨hi, hopen⟩ := not_masked_of_draw h
  rw [scale_eq_tempered] at hopen
  have hlen : (retainTopK (tempered row temperature) k).length = row.length := by
    rw [length_retainTopK, tempered, List.length_map]
  obtain ⟨z, hz⟩ := exists_getElem? hlen.symm (List.getElem?_eq_getElem hi)
  have hlow : negInf < z := by
    refine negInf_lt ((numbers_retainTopK hnum).get hz) fun hle => hopen ?_
    rw [Masked, hz, eq_negInf hle]
  obtain ⟨hentry, hstays⟩ := getElem?_retainTopK hnum hz hlow
  obtain ⟨x, hx, rfl⟩ := getElem?_tempered_iff.mp hentry
  exact ⟨x, hx, negInf_lt_of_tempered (hvalid.numbers.get hx) ht hlow, hstays⟩

/-- A draw never leaves the allowed set.  It gives an entry of the row, not a
masked one; and if the row is cut, one that fewer than `k` entries of the
divided row are larger than. -/
theorem draw_among_best {k i : Nat} {g g' : Generator} (hvalid : Valid row)
    (ht : temperature < posInf) (h : draw row temperature k g = (some i, g')) :
    ∃ x, row[i]? = some x ∧ negInf < x ∧ (0 < k → k < row.length →
      numLarger (tempered row temperature) (x / clampTemperature temperature) < k) := by
  obtain ⟨x, hx, hopen, hstays⟩ := stays_of_draw hvalid ht h
  have hlen : (tempered row temperature).length = row.length := List.length_map _
  exact ⟨x, hx, hopen, fun hk hlt => hstays hk (hlen.symm ▸ hlt)⟩

/-- Two entries that tie, one that is masked, and two that are smaller. -/
def tiedRow : List Stark := [(0 : Float), Score.negInf, (5 : Float), (5 : Float), (3 : Float)]

/-- The cut at one entry leaves both that tie. -/
theorem tiedRow_draw : ∃ g', Valid tiedRow ∧ (1 : Stark) < posInf ∧
    draw tiedRow 1 1 (Generator.ofSeed 1) = (some 3, g') ∧
    ∃ x, tiedRow[3]? = some x ∧ negInf < x ∧ (0 < 1 → 1 < tiedRow.length →
      numLarger (tempered tiedRow 1) (x / clampTemperature 1) < 1) := by
  have hvalid : ∀ x ∈ tiedRow, x < posInf := by decide +kernel
  have hlt : (1 : Stark) < posInf := by decide +kernel
  have hindex : (draw tiedRow 1 1 (Generator.ofSeed 1)).1 = some 3 := by decide +kernel
  obtain ⟨⟨_, g'⟩, hdraw⟩ : ∃ drawn, draw tiedRow 1 1 (Generator.ofSeed 1) = drawn := ⟨_, rfl⟩
  rw [hdraw] at hindex
  cases hindex
  exact ⟨g', hvalid, hlt, hdraw, draw_among_best hvalid hlt hdraw⟩

/-- A draw gives something where the divided row has something to choose. -/
theorem exists_draw {k : Nat} (hvalid : Valid row) (ht : temperature < posInf)
    (hcount : (retainTopK (tempered row temperature) k).countP (fun x => decide (posInf ≤ x))
      < Word.bound)
    (hmass : hasMass (tempered row temperature) = true) (g : Generator) :
    ∃ i g', draw row temperature k g = (some i, g') := by
  have hnum := numbers_tempered hvalid ht
  unfold draw
  rw [scale_eq_tempered]
  cases hsoftmax : softmax (retainTopK (tempered row temperature) k) with
  | none =>
    rw [softmax_eq_none_iff (numbers_retainTopK hnum), hasMass_retainTopK hnum, hmass] at hsoftmax
    cases hsoftmax
  | some weights =>
    exact (drawable_softmax (numbers_retainTopK hnum) hcount hsoftmax).exists_weightedSample g

/-- A draw gives nothing exactly if the divided row has nothing to choose. -/
theorem draw_eq_none_iff {k : Nat} (hvalid : Valid row) (ht : temperature < posInf)
    (hlength : row.length < Word.bound) (g : Generator) :
    (draw row temperature k g).1 = none ↔ (∀ x ∈ row, x = negInf) ∨ Sunk row temperature := by
  rw [← hasMass_tempered_eq_false_iff hvalid ht]
  have hnum := numbers_tempered hvalid ht
  constructor
  · intro hnone
    by_contra hmass
    have hcount : (retainTopK (tempered row temperature) k).countP (fun x => decide (posInf ≤ x))
        < Word.bound := by
      refine Nat.lt_of_le_of_lt List.countP_le_length ?_
      rwa [length_retainTopK, tempered, List.length_map]
    obtain ⟨i, g', hdraw⟩ := exists_draw hvalid ht hcount (Bool.not_eq_false _ ▸ hmass) g
    rw [hdraw] at hnone
    cases hnone
  · intro hmass
    have hsoftmax : softmax (retainTopK (tempered row temperature) k) = none := by
      rw [softmax_eq_none_iff (numbers_retainTopK hnum), hasMass_retainTopK hnum, hmass]
    rw [draw, scale_eq_tempered, hsoftmax]

end Row

end OrderDecoding
