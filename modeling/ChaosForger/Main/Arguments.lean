import ChaosForger.Main

/-!
# ChaosForger.Main.Arguments

The meaning of a command line: options in any order, the last path counts, and
the first word that is no option of a run decides alone.
-/

namespace ChaosForger

open Libc

/-- An option of a run. -/
inductive Argument where
  | config (path : List UInt8)
  | once | dryRun | discover

namespace Argument

/-- How it is spelled, word by word. -/
def spellings : Argument → List (List (List UInt8))
  | .config path => [[lit "-c", path], [lit "--config", path]]
  | .once => [[lit "-o"], [lit "--once"]]
  | .dryRun => [[lit "-n"], [lit "--dry-run"]]
  | .discover => [[lit "-d"], [lit "--discover"]]

def path? : Argument → Option (List UInt8)
  | .config path => some path
  | _ => none

def isOnce : Argument → Bool
  | .once => true
  | _ => false

def isDryRun : Argument → Bool
  | .dryRun => true
  | _ => false

def isDiscover : Argument → Bool
  | .discover => true
  | _ => false

end Argument

/-- What options say together. -/
def Options.of (options : List Argument) : Options where
  configPath := (options.filterMap Argument.path?).getLast?.getD (lit "config.json")
  once := options.any Argument.isOnce
  dryRunFlag := options.any Argument.isDryRun
  discoverFlag := options.any Argument.isDiscover

/-- Words that spell these options. -/
inductive Spelled : List Argument → List (List UInt8) → Prop where
  | nil : Spelled [] []
  | cons {option options words rest} : words ∈ option.spellings → Spelled options rest →
      Spelled (option :: options) (words ++ rest)

/-- The first words of the options, and of what ends the program. -/
def knownWords : List (List UInt8) :=
  [lit "-c", lit "--config", lit "-o", lit "--once", lit "-n", lit "--dry-run", lit "-d",
    lit "--discover", lit "-h", lit "--help", lit "-v", lit "--version"]

/-- What a command line means. -/
inductive Means : List (List UInt8) → CommandLine → Prop where
  | run {options args} : Spelled options args → Means args (.run (.of options))
  | help {options front word rest} : Spelled options front → word ∈ [lit "-h", lit "--help"] →
      Means (front ++ word :: rest) .help
  | version {options front word rest} : Spelled options front →
      word ∈ [lit "-v", lit "--version"] → Means (front ++ word :: rest) .version
  | missingValue {options front word} : Spelled options front →
      word ∈ [lit "-c", lit "--config"] → Means (front ++ [word]) .missingValue
  | unknown {options front word rest} : Spelled options front → word ∉ knownWords →
      Means (front ++ word :: rest) (.unknown word)

/-! ## One option -/

/-- What an option does to the options so far. -/
def Options.set (o : Options) : Argument → Options
  | .config path => { o with configPath := path }
  | .once => { o with once := true }
  | .dryRun => { o with dryRunFlag := true }
  | .discover => { o with discoverFlag := true }

theorem foldl_set (options : List Argument) (o : Options) :
    options.foldl Options.set o =
      { configPath := (options.filterMap Argument.path?).getLast?.getD o.configPath
        once := o.once || options.any Argument.isOnce
        dryRunFlag := o.dryRunFlag || options.any Argument.isDryRun
        discoverFlag := o.discoverFlag || options.any Argument.isDiscover } := by
  induction options generalizing o with
  | nil => simp
  | cons option options ih =>
      rw [List.foldl_cons, ih]
      cases option <;>
        simp [Options.set, Argument.path?, Argument.isOnce, Argument.isDryRun, Argument.isDiscover,
          List.getLast?_cons]

theorem of_eq_foldl (options : List Argument) : Options.of options = options.foldl Options.set {} := by
  rw [foldl_set]
  simp [Options.of]

/-- The loop at a word that is not the path option. -/
theorem readArguments_word {arg : List UInt8} (h : ¬ (arg = lit "-c" ∨ arg = lit "--config"))
    (rest : List (List UInt8)) (o : Options) :
    readArguments (arg :: rest) o =
      if arg = lit "-o" ∨ arg = lit "--once" then readArguments rest { o with once := true }
      else if arg = lit "-n" ∨ arg = lit "--dry-run" then
        readArguments rest { o with dryRunFlag := true }
      else if arg = lit "-d" ∨ arg = lit "--discover" then
        readArguments rest { o with discoverFlag := true }
      else if arg = lit "-h" ∨ arg = lit "--help" then .help
      else if arg = lit "-v" ∨ arg = lit "--version" then .version
      else .unknown arg := by
  cases rest <;> exact if_neg h

/-- The loop takes an option as it is spelled. -/
theorem readArguments_option {option : Argument} {words : List (List UInt8)}
    (h : words ∈ option.spellings) (rest : List (List UInt8)) (o : Options) :
    readArguments (words ++ rest) o = readArguments rest (o.set option) := by
  cases option with
  | config path =>
      simp only [Argument.spellings, List.mem_cons, List.not_mem_nil, or_false] at h
      obtain rfl | rfl := h <;> simp [readArguments, Options.set]
  | once =>
      simp only [Argument.spellings, List.mem_cons, List.not_mem_nil, or_false] at h
      obtain rfl | rfl := h <;>
        rw [List.singleton_append, readArguments_word (by decide), if_pos (by decide)] <;>
        rfl
  | dryRun =>
      simp only [Argument.spellings, List.mem_cons, List.not_mem_nil, or_false] at h
      obtain rfl | rfl := h <;>
        rw [List.singleton_append, readArguments_word (by decide),
          if_neg (by decide), if_pos (by decide)] <;>
        rfl
  | discover =>
      simp only [Argument.spellings, List.mem_cons, List.not_mem_nil, or_false] at h
      obtain rfl | rfl := h <;>
        rw [List.singleton_append, readArguments_word (by decide),
          if_neg (by decide), if_neg (by decide), if_pos (by decide)] <;>
        rfl

theorem readArguments_spelled {options : List Argument} {front : List (List UInt8)}
    (h : Spelled options front) (rest : List (List UInt8)) (o : Options) :
    readArguments (front ++ rest) o = readArguments rest (options.foldl Options.set o) := by
  induction h generalizing o with
  | nil => rfl
  | cons hwords _ ih => rw [List.append_assoc, readArguments_option hwords, ih, List.foldl_cons]

/-! ## The whole line -/

theorem readArguments_of_means {args : List (List UInt8)} {c : CommandLine} (h : Means args c) :
    readArguments args {} = c := by
  cases h with
  | @run options _ hfront =>
      have hread := readArguments_spelled hfront [] {}
      rw [List.append_nil] at hread
      rw [hread, of_eq_foldl]
      rfl
  | help hfront hword =>
      rw [readArguments_spelled hfront]
      simp only [List.mem_cons, List.not_mem_nil, or_false] at hword
      obtain rfl | rfl := hword <;>
        rw [readArguments_word (by decide), if_neg (by decide),
          if_neg (by decide), if_neg (by decide), if_pos (by decide)]
  | version hfront hword =>
      rw [readArguments_spelled hfront]
      simp only [List.mem_cons, List.not_mem_nil, or_false] at hword
      obtain rfl | rfl := hword <;>
        rw [readArguments_word (by decide), if_neg (by decide),
          if_neg (by decide), if_neg (by decide), if_neg (by decide),
          if_pos (by decide)]
  | missingValue hfront hword =>
      rw [readArguments_spelled hfront]
      simp only [List.mem_cons, List.not_mem_nil, or_false] at hword
      obtain rfl | rfl := hword <;> simp [readArguments]
  | unknown hfront hword =>
      simp only [knownWords, List.mem_cons, List.not_mem_nil, or_false, not_or] at hword
      obtain ⟨hc, hconfig, ho, honce, hn, hdry, hd, hdiscover, hh, hhelp, hv, hversion⟩ := hword
      rw [readArguments_spelled hfront, readArguments_word (by simp [hc, hconfig])]
      simp [ho, honce, hn, hdry, hd, hdiscover, hh, hhelp, hv, hversion]

/-- An option in front leaves the kind of a command line as it is. -/
theorem Means.cons (option : Argument) (words : List (List UInt8)) {args : List (List UInt8)}
    {c : CommandLine} (hwords : words ∈ option.spellings) (h : Means args c) : ∃ c', Means (words ++ args) c' := by
  cases h with
  | run hfront => exact ⟨_, .run (.cons hwords hfront)⟩
  | @help _ front word rest hfront hword =>
      refine ⟨.help, ?_⟩
      rw [← List.append_assoc]
      exact .help (.cons hwords hfront) hword
  | @version _ front word rest hfront hword =>
      refine ⟨.version, ?_⟩
      rw [← List.append_assoc]
      exact .version (.cons hwords hfront) hword
  | @missingValue _ front word hfront hword =>
      refine ⟨.missingValue, ?_⟩
      rw [← List.append_assoc]
      exact .missingValue (.cons hwords hfront) hword
  | @unknown _ front word rest hfront hword =>
      refine ⟨.unknown word, ?_⟩
      rw [← List.append_assoc]
      exact .unknown (.cons hwords hfront) hword

/-- Every command line means something. -/
theorem exists_means (args : List (List UInt8)) (o : Options) : ∃ c, Means args c := by
  fun_induction readArguments args o with
  | case1 o => exact ⟨_, .run .nil⟩
  | case2 arg o harg => exact ⟨.missingValue, .missingValue .nil (by simpa using harg)⟩
  | case3 arg o harg value rest ih =>
      obtain ⟨c, hc⟩ := ih
      exact hc.cons (.config value) [arg, value] (by grind [Argument.spellings])
  | case4 arg rest o _ harg ih =>
      obtain ⟨c, hc⟩ := ih
      exact hc.cons .once [arg] (by grind [Argument.spellings])
  | case5 arg rest o _ _ harg ih =>
      obtain ⟨c, hc⟩ := ih
      exact hc.cons .dryRun [arg] (by grind [Argument.spellings])
  | case6 arg rest o _ _ _ harg ih =>
      obtain ⟨c, hc⟩ := ih
      exact hc.cons .discover [arg] (by grind [Argument.spellings])
  | case7 arg rest o _ _ _ _ harg => exact ⟨.help, .help .nil (by simpa using harg)⟩
  | case8 arg rest o _ _ _ _ _ harg => exact ⟨.version, .version .nil (by simpa using harg)⟩
  | case9 arg rest o hconfig honce hdry hdiscover hhelp hversion =>
      exact ⟨.unknown arg, .unknown .nil (by simp_all [knownWords])⟩

/-- **The argument loop takes a command line as it is meant.** -/
theorem readArguments_iff {args : List (List UInt8)} {c : CommandLine} :
    readArguments args {} = c ↔ Means args c := by
  constructor
  · intro h
    obtain ⟨c', hc'⟩ := exists_means args {}
    have hsame := readArguments_of_means hc'
    rw [h] at hsame
    rwa [hsame]
  · exact readArguments_of_means

end ChaosForger
