/-
# `Proofs.Grouping` — a command line is read group by group

The argument after a flag belongs to the flag whatever it looks like, so where
a group starts depends on all that stands before it.  The grammar of a command
line is written down here once more without the reader: what one group is
(`Group.Spelled`), what a list of them is (`Grouped`), and in which ways a
list of arguments can fail to START with a group (`IllFormed`).  A list that
is not empty does one or the other, so every command line is made of groups
up to its end or up to its first ill-formed one (`exists_groups`).  Reading
takes a group off the front and adds it to what was said (`readFrom_spelled`),
and stops at what is none.

Of what was said, a field holds the value of the LAST group of its flag
(`holdsIn_iff_last`).  That is all it depends on.
-/
import OrderDecoding.CommandLine.Arguments
import OrderDecoding.Proofs.Runs

namespace OrderDecoding
namespace CommandLine

/-! ## Groups -/

/-- One group: a switch, or a flag with the value that it was given. -/
inductive Group where
  | input (path : String)
  | settings (path : String)
  | mode (m : Mode)
  | beamWidth (n : Nat)
  | samples (n : Nat)
  | candidates (n : Nat)
  | temperature (x : Float)
  | topK (n : Nat)
  | unconstrained
  | seed (word : UInt64)
  | threads (n : Nat)
  | quiet

/-- The words that are a group by themselves. -/
def switches : List String := ["--unconstrained", "--quiet"]

/-- The words that are a group together with the argument behind them. -/
def valueFlags : List String :=
  ["--input", "--config", "--mode", "--beam-width", "--samples", "--candidates", "--temperature",
    "--top-k", "--seed", "--threads"]

/-- The words that call for help. -/
def helpWords : List String := ["--help", "-h"]

namespace Group

/-- The word that a group starts with. -/
def flag : Group → String
  | input _ => "--input"
  | settings _ => "--config"
  | mode _ => "--mode"
  | beamWidth _ => "--beam-width"
  | samples _ => "--samples"
  | candidates _ => "--candidates"
  | temperature _ => "--temperature"
  | topK _ => "--top-k"
  | unconstrained => "--unconstrained"
  | seed _ => "--seed"
  | threads _ => "--threads"
  | quiet => "--quiet"

/-- The arguments that spell a group. -/
inductive Spelled : Group → List String → Prop
  | input {path : String} : Spelled (input path) ["--input", path]
  | settings {path : String} : Spelled (settings path) ["--config", path]
  | mode {m : Mode} {text : String} :
      Mode.ofName? text = some m → Spelled (mode m) ["--mode", text]
  | beamWidth {n : Nat} {text : String} :
      Decimal.natural? text = some n → Spelled (beamWidth n) ["--beam-width", text]
  | samples {n : Nat} {text : String} :
      Decimal.natural? text = some n → Spelled (samples n) ["--samples", text]
  | candidates {n : Nat} {text : String} :
      Decimal.natural? text = some n → Spelled (candidates n) ["--candidates", text]
  | temperature {x : Float} {text : String} :
      Decimal.float? text = some x → Spelled (temperature x) ["--temperature", text]
  | topK {n : Nat} {text : String} :
      Decimal.natural? text = some n → Spelled (topK n) ["--top-k", text]
  | unconstrained : Spelled unconstrained ["--unconstrained"]
  | seed {n : Nat} {text : String} :
      Decimal.natural? text = some n → Spelled (seed (UInt64.ofNat n)) ["--seed", text]
  | threads {n : Nat} {text : String} :
      Decimal.natural? text = some n → Spelled (threads n) ["--threads", text]
  | quiet : Spelled quiet ["--quiet"]

/-- What was said, with one more group said. -/
def addTo : Group → Arguments → Arguments
  | input path, a => { a with input := some path }
  | settings path, a => { a with settings := some path }
  | mode m, a => { a with mode := some m }
  | beamWidth n, a => { a with beamWidth := some n }
  | samples n, a => { a with samples := some n }
  | candidates n, a => { a with candidates := some n }
  | temperature x, a => { a with temperature := some x }
  | topK n, a => { a with topK := some n }
  | unconstrained, a => { a with unconstrained := true }
  | seed word, a => { a with seed := some word }
  | threads n, a => { a with threads := some n }
  | quiet, a => { a with quiet := true }

/-- The field of a group holds the value of the group. -/
def HoldsIn : Group → Arguments → Prop
  | input path, a => a.input = some path
  | settings path, a => a.settings = some path
  | mode m, a => a.mode = some m
  | beamWidth n, a => a.beamWidth = some n
  | samples n, a => a.samples = some n
  | candidates n, a => a.candidates = some n
  | temperature x, a => a.temperature = some x
  | topK n, a => a.topK = some n
  | unconstrained, a => a.unconstrained = true
  | seed word, a => a.seed = some word
  | threads n, a => a.threads = some n
  | quiet, a => a.quiet = true

variable {a a' : Arguments} {g h : Group} {groups groups' : List Group}

theorem holdsIn_addTo_self (hflag : h.flag = g.flag) : g.HoldsIn (h.addTo a) ↔ h = g := by
  cases g <;> cases h <;> simp [flag, HoldsIn, addTo] at hflag ⊢

theorem holdsIn_addTo_of_ne (hflag : h.flag ≠ g.flag) :
    g.HoldsIn (h.addTo a) ↔ g.HoldsIn a := by
  cases g <;> cases h <;> first | exact Iff.rfl | exact absurd rfl hflag

theorem not_holdsIn_nothing (g : Group) : ¬ g.HoldsIn {} := by
  cases g <;> simp [HoldsIn]

/-- What was said is known by the groups that hold in it. -/
theorem eq_of_holdsIn_iff (hall : ∀ g : Group, g.HoldsIn a ↔ g.HoldsIn a') : a = a' := by
  cases a
  cases a'
  rw [Arguments.mk.injEq]
  exact
    ⟨Option.ext fun _ => hall (.input _), Option.ext fun _ => hall (.settings _),
      Option.ext fun _ => hall (.mode _), Option.ext fun _ => hall (.beamWidth _),
      Option.ext fun _ => hall (.samples _), Option.ext fun _ => hall (.candidates _),
      Option.ext fun _ => hall (.temperature _), Option.ext fun _ => hall (.topK _),
      Bool.eq_iff_iff.mpr (hall .unconstrained), Option.ext fun _ => hall (.seed _),
      Option.ext fun _ => hall (.threads _), Bool.eq_iff_iff.mpr (hall .quiet)⟩

/-- What groups say, one after the other. -/
def sayAll (groups : List Group) : Arguments := groups.foldl (fun a g => g.addTo a) {}

/-- The last group of a flag is the one that its field holds. -/
theorem holdsIn_iff_last : g.HoldsIn (sayAll groups) ↔
    (groups.filter fun h => h.flag = g.flag).getLast? = some g := by
  unfold sayAll
  rw [holds_foldl_iff holdsIn_addTo_self holdsIn_addTo_of_ne]
  simp [not_holdsIn_nothing g]

/-- Between groups of different flags the order does not matter. -/
theorem sayAll_congr
    (hsame : ∀ flag,
      groups.filter (fun g => g.flag = flag) = groups'.filter fun g => g.flag = flag) :
    sayAll groups = sayAll groups' :=
  eq_of_holdsIn_iff fun g => by rw [holdsIn_iff_last, holdsIn_iff_last, hsame]

end Group

/-- A list of arguments spells a list of groups. -/
inductive Grouped : List Group → List String → Prop
  | nil : Grouped [] []
  | cons {g : Group} {groups : List Group} {piece rest : List String} :
      g.Spelled piece → Grouped groups rest → Grouped (g :: groups) (piece ++ rest)

/-- A list of arguments does not start with a group, and how reading stops
there. -/
inductive IllFormed : List String → Stop → Prop
  | help {word : String} {rest : List String} : word ∈ helpWords → IllFormed (word :: rest) .help
  | unknown {word : String} {rest : List String} :
      word ∉ switches → word ∉ valueFlags → word ∉ helpWords →
      IllFormed (word :: rest) (.unknown word)
  | missingValue {flag : String} : flag ∈ valueFlags → IllFormed [flag] (.missingValue flag)
  | invalidValue {flag text : String} {rest : List String} :
      flag ∈ valueFlags → (∀ g : Group, ¬ g.Spelled [flag, text]) →
      IllFormed (flag :: text :: rest) (.invalidValue flag text)

namespace Arguments

variable {said a : Arguments} {set : Arguments → Arguments} {g : Group} {groups : List Group}
variable {word text : String} {piece before rest : List String} {stop : Stop}

/-! ## One group -/

theorem switch?_eq_some_iff :
    switch? word = some set ↔ ∃ g : Group, g.Spelled [word] ∧ g.addTo = set := by
  constructor
  · intro h
    unfold switch? at h
    split at h
    · cases h
      exact ⟨_, .unconstrained, rfl⟩
    · cases h
      exact ⟨_, .quiet, rfl⟩
    · cases h
  · rintro ⟨g, hg, rfl⟩
    cases hg <;> rfl

/-- What a flag makes of the text behind it. -/
theorem flag?_bind_eq_some_iff :
    (flag? word).bind (· text) = some set ↔
      ∃ g : Group, g.Spelled [word, text] ∧ g.addTo = set := by
  constructor
  · intro h
    obtain ⟨value, hvalue, hset⟩ := Option.bind_eq_some_iff.mp h
    unfold flag? at hvalue
    split at hvalue <;> cases hvalue
    · cases hset
      exact ⟨_, .input, rfl⟩
    · cases hset
      exact ⟨_, .settings, rfl⟩
    all_goals obtain ⟨x, hx, rfl⟩ := Option.map_eq_some_iff.mp hset
    · exact ⟨_, .mode hx, rfl⟩
    · exact ⟨_, .beamWidth hx, rfl⟩
    · exact ⟨_, .samples hx, rfl⟩
    · exact ⟨_, .candidates hx, rfl⟩
    · exact ⟨_, .temperature hx, rfl⟩
    · exact ⟨_, .topK hx, rfl⟩
    · exact ⟨_, .seed hx, rfl⟩
    · exact ⟨_, .threads hx, rfl⟩
  · rintro ⟨g, hg, rfl⟩
    cases hg with
    | input => rfl
    | settings => rfl
    | mode hx | beamWidth hx | samples hx | candidates hx | temperature hx | topK hx | seed hx
      | threads hx => exact Option.map_eq_some_iff.mpr ⟨_, hx, rfl⟩

theorem isSome_switch?_iff : (switch? word).isSome ↔ word ∈ switches := by
  unfold switch?
  split <;> simp_all [switches]

theorem isSome_flag?_iff : (flag? word).isSome ↔ word ∈ valueFlags := by
  unfold flag?
  split <;> simp_all [valueFlags]

theorem switch?_eq_none (h : word ∉ switches) : switch? word = none :=
  Option.not_isSome_iff_eq_none.mp (mt isSome_switch?_iff.mp h)

theorem flag?_eq_none (h : word ∉ valueFlags) : flag? word = none :=
  Option.not_isSome_iff_eq_none.mp (mt isSome_flag?_iff.mp h)

theorem not_mem_switches_of_mem_valueFlags (h : word ∈ valueFlags) : word ∉ switches := by
  simp only [valueFlags, List.mem_cons, List.not_mem_nil, or_false] at h
  rcases h with rfl | rfl | rfl | rfl | rfl | rfl | rfl | rfl | rfl | rfl <;> decide

theorem not_mem_of_mem_helpWords (h : word ∈ helpWords) : word ∉ switches ∧ word ∉ valueFlags := by
  simp only [helpWords, List.mem_cons, List.not_mem_nil, or_false] at h
  rcases h with rfl | rfl <;> decide

theorem isHelp_iff : (word == "--help" || word == "-h") = true ↔ word ∈ helpWords := by
  simp [helpWords]

theorem exists_flag? (h : word ∈ valueFlags) :
    switch? word = none ∧ ∃ value, flag? word = some value :=
  ⟨switch?_eq_none (not_mem_switches_of_mem_valueFlags h),
    Option.isSome_iff_exists.mp (isSome_flag?_iff.mpr h)⟩

/-- A group is a switch or a flag with one argument behind it. -/
theorem shape_of_spelled (h : g.Spelled piece) :
    (∃ word, piece = [word] ∧ word ∈ switches) ∨
      ∃ word text, piece = [word, text] ∧ word ∈ valueFlags := by
  cases h with
  | unconstrained | quiet => exact Or.inl ⟨_, rfl, by decide⟩
  | input | settings | mode | beamWidth | samples | candidates | temperature | topK | seed
    | threads => exact Or.inr ⟨_, _, rfl, by decide⟩

theorem ne_nil_of_spelled (h : g.Spelled piece) : piece ≠ [] := by
  rcases shape_of_spelled h with ⟨word, rfl, -⟩ | ⟨word, text, rfl, -⟩ <;>
    exact List.cons_ne_nil _ _

/-- Reading takes a group off the front. -/
theorem readFrom_spelled (h : g.Spelled piece) :
    readFrom said (piece ++ rest) = readFrom (g.addTo said) rest := by
  rcases shape_of_spelled h with ⟨word, rfl, -⟩ | ⟨word, text, rfl, hflag⟩
  · have hswitch : switch? word = some g.addTo := switch?_eq_some_iff.mpr ⟨g, h, rfl⟩
    rw [List.singleton_append, readFrom, hswitch]
  · obtain ⟨hnone, -⟩ := exists_flag? hflag
    obtain ⟨value, hvalue, hset⟩ :=
      Option.bind_eq_some_iff.mp (flag?_bind_eq_some_iff.mpr ⟨g, h, rfl⟩)
    rw [List.cons_append, List.singleton_append, readFrom, hnone, hvalue]
    dsimp only
    rw [hset]

/-- Reading stops where no group starts. -/
theorem readFrom_illFormed (h : IllFormed rest stop) : readFrom said rest = .error stop := by
  cases h with
  | @help word rest hword =>
    obtain ⟨hswitch, hflag⟩ := not_mem_of_mem_helpWords hword
    rw [readFrom, switch?_eq_none hswitch, flag?_eq_none hflag]
    dsimp only
    rw [if_pos (isHelp_iff.mpr hword)]
  | @unknown word rest hswitch hflag hword =>
    rw [readFrom, switch?_eq_none hswitch, flag?_eq_none hflag]
    dsimp only
    rw [if_neg (mt isHelp_iff.mp hword)]
  | missingValue hflag =>
    obtain ⟨hnone, value, hvalue⟩ := exists_flag? hflag
    rw [readFrom, hnone, hvalue]
  | @invalidValue flag text rest hflag hinvalid =>
    obtain ⟨hnone, value, hvalue⟩ := exists_flag? hflag
    have htext : value text = none := by
      refine Option.eq_none_iff_forall_ne_some.mpr fun set hset => ?_
      obtain ⟨g, hg, -⟩ :=
        flag?_bind_eq_some_iff.mp (Option.bind_eq_some_iff.mpr ⟨value, hvalue, hset⟩)
      exact hinvalid g hg
    rw [readFrom, hnone, hvalue]
    dsimp only
    rw [htext]

/-- Where arguments are left, a group starts or none does. -/
theorem spelled_or_illFormed (word : String) (rest : List String) :
    (∃ (g : Group) (piece after : List String), word :: rest = piece ++ after ∧ g.Spelled piece) ∨
      ∃ stop, IllFormed (word :: rest) stop := by
  by_cases hflag : word ∈ valueFlags
  · cases rest with
    | nil => exact Or.inr ⟨_, .missingValue hflag⟩
    | cons text rest =>
      by_cases hspelled : ∃ g : Group, g.Spelled [word, text]
      · obtain ⟨g, hg⟩ := hspelled
        exact Or.inl ⟨g, _, rest, rfl, hg⟩
      · exact Or.inr ⟨_, .invalidValue hflag (not_exists.mp hspelled)⟩
  · by_cases hswitch : word ∈ switches
    · obtain ⟨set, hset⟩ := Option.isSome_iff_exists.mp (isSome_switch?_iff.mpr hswitch)
      obtain ⟨g, hg, -⟩ := switch?_eq_some_iff.mp hset
      exact Or.inl ⟨g, _, rest, rfl, hg⟩
    · by_cases hword : word ∈ helpWords
      · exact Or.inr ⟨_, .help hword⟩
      · exact Or.inr ⟨_, .unknown hswitch hflag hword⟩

/-! ## The whole command line -/

theorem readFrom_grouped (h : Grouped groups before) :
    readFrom said (before ++ rest) = readFrom (groups.foldl (fun a g => g.addTo a) said) rest := by
  induction h generalizing said with
  | nil => rfl
  | cons hg _ ih => rw [List.append_assoc, readFrom_spelled hg, ih, List.foldl_cons]

theorem read_grouped (h : Grouped groups before) : read before = .ok (Group.sayAll groups) := by
  have hread : readFrom {} (before ++ []) = .ok (Group.sayAll groups) := readFrom_grouped h
  rwa [List.append_nil] at hread

theorem read_illFormed (h : Grouped groups before) (hrest : IllFormed rest stop) :
    read (before ++ rest) = .error stop := by
  rw [read, readFrom_grouped h, readFrom_illFormed hrest]

/-- A command line is made of groups, up to its end or up to where none
starts. -/
theorem exists_groups (arguments : List String) : ∃ groups before rest,
    arguments = before ++ rest ∧ Grouped groups before ∧
      (rest = [] ∨ ∃ stop, IllFormed rest stop) := by
  induction hlength : arguments.length using Nat.strongRecOn generalizing arguments with
  | ind n ih =>
    cases arguments with
    | nil => exact ⟨[], [], [], rfl, .nil, Or.inl rfl⟩
    | cons word rest =>
      rcases spelled_or_illFormed word rest with ⟨g, piece, after, heq, hg⟩ | hstop
      · have hshorter : after.length < n := by
          have := List.length_pos_iff.mpr (ne_nil_of_spelled hg)
          rw [← hlength, heq, List.length_append]
          omega
        obtain ⟨groups, before, rest', rfl, hgroups, hend⟩ := ih _ hshorter after rfl
        exact ⟨g :: groups, piece ++ before, rest', by rw [heq, List.append_assoc],
          .cons hg hgroups, hend⟩
      · exact ⟨[], [], word :: rest, rfl, .nil, Or.inr hstop⟩

theorem read_eq_ok_iff {arguments : List String} :
    read arguments = .ok a ↔ ∃ groups, Grouped groups arguments ∧ a = Group.sayAll groups := by
  constructor
  · intro h
    obtain ⟨groups, before, rest, rfl, hgroups, rfl | ⟨stop, hstop⟩⟩ := exists_groups arguments
    · rw [List.append_nil] at h ⊢
      rw [read_grouped hgroups] at h
      exact ⟨groups, hgroups, (Except.ok.inj h).symm⟩
    · rw [read_illFormed hgroups hstop] at h
      cases h
  · rintro ⟨groups, hgroups, rfl⟩
    exact read_grouped hgroups

theorem read_eq_error_iff {arguments : List String} :
    read arguments = .error stop ↔ ∃ groups before rest,
      arguments = before ++ rest ∧ Grouped groups before ∧ IllFormed rest stop := by
  constructor
  · intro h
    obtain ⟨groups, before, rest, rfl, hgroups, rfl | ⟨stop', hstop⟩⟩ := exists_groups arguments
    · rw [List.append_nil, read_grouped hgroups] at h
      cases h
    · rw [read_illFormed hgroups hstop] at h
      cases h
      exact ⟨groups, before, rest, rfl, hgroups, hstop⟩
  · rintro ⟨groups, before, rest, rfl, hgroups, hstop⟩
    exact read_illFormed hgroups hstop

/-- A command line is read exactly if it is made of groups, and otherwise
reading stops as the first ill-formed group has it: at a call for help, at a
word that is none of the flags, at a flag with nothing behind it, or at one
whose text does not read.  Each field of what was said holds the value of the
last group of its flag, and nothing if there is none; so two command lines
that agree flag by flag say the same. -/
theorem command_line_is_read_by_groups :
    (∀ arguments a, read arguments = .ok a ↔ ∃ groups, Grouped groups arguments ∧
      ∀ g : Group, g.HoldsIn a ↔
        (groups.filter fun h => h.flag = g.flag).getLast? = some g) ∧
    (∀ arguments stop, read arguments = .error stop ↔ ∃ groups before rest,
      arguments = before ++ rest ∧ Grouped groups before ∧ IllFormed rest stop) ∧
    (∀ arguments arguments' groups groups',
      Grouped groups arguments → Grouped groups' arguments' →
      (∀ flag, groups.filter (fun g => g.flag = flag) = groups'.filter fun g => g.flag = flag) →
      read arguments = read arguments') := by
  refine ⟨fun arguments a => ?_, fun arguments stop => read_eq_error_iff,
    fun arguments arguments' groups groups' h h' hsame => ?_⟩
  · rw [read_eq_ok_iff]
    refine exists_congr fun groups => and_congr_right fun _ => ?_
    simp only [← Group.holdsIn_iff_last]
    constructor
    · rintro rfl g
      exact Iff.rfl
    · exact Group.eq_of_holdsIn_iff
  · rw [read_grouped h, read_grouped h', Group.sayAll_congr hsame]

/-- A switch behind the flag of a file is the name of the file, and the later of
two widths counts, wherever other groups stand. -/
theorem later_width_is_read :
    (∃ a, read ["--input", "--quiet", "--beam-width", "3", "--beam-width", "7"] = .ok a ∧
      (Group.input "--quiet").HoldsIn a ∧ (Group.beamWidth 7).HoldsIn a ∧
      ¬ Group.quiet.HoldsIn a) ∧
    read ["--input", "--quiet", "--beam-width", "3", "--beam-width", "7"] =
      read ["--beam-width", "3", "--input", "--quiet", "--beam-width", "7"] := by
  obtain ⟨hread, -, hsame⟩ := command_line_is_read_by_groups
  have hinput : (Group.input "--quiet").Spelled ["--input", "--quiet"] := .input
  have hthree : (Group.beamWidth 3).Spelled ["--beam-width", "3"] := .beamWidth (by decide +kernel)
  have hseven : (Group.beamWidth 7).Spelled ["--beam-width", "7"] := .beamWidth (by decide +kernel)
  have hgroups := Grouped.cons hinput (.cons hthree (.cons hseven .nil))
  have hmoved := Grouped.cons hthree (.cons hinput (.cons hseven .nil))
  refine ⟨⟨_, (hread _ _).mpr ⟨_, hgroups, fun _ => Group.holdsIn_iff_last⟩, rfl, rfl,
    Bool.false_ne_true⟩, hsame _ _ _ _ hgroups hmoved fun flag => ?_⟩
  by_cases hflag : "--input" = flag
  · subst hflag
    rfl
  · simp [List.filter_cons, Group.flag, hflag]

end Arguments
end CommandLine
end OrderDecoding
