import BillGrammar.Command.Law
import BillGrammar.Source.Fixed

namespace BillGrammar.LawCommand

structure FlagValue where
  flag : Flag
  name : String
  value : String
  named : Argument.ofString name = .flag flag

namespace FlagValue

variable {f : Flag} {p : FlagValue} {ps qs : List FlagValue}

def arguments (ps : List FlagValue) : List String := ps.flatMap fun p => [p.name, p.value]

def last? (f : Flag) (ps : List FlagValue) : Option String :=
  (ps.reverse.find? (·.flag = f)).map (·.value)

def lastNumber? (f : Flag) (ps : List FlagValue) : Option Nat := (last? f ps).bind Text.word64?

/-- A quantity or a seed is a number of 64 bits. -/
def Readable (p : FlagValue) : Prop :=
  p.flag = .quantity ∨ p.flag = .seed → (Text.word64? p.value).isSome

instance (p : FlagValue) : Decidable p.Readable :=
  inferInstanceAs (Decidable (p.flag = .quantity ∨ p.flag = .seed → _))

def options (o : Options) (ps : List FlagValue) : Options where
  quantity := (lastNumber? .quantity ps).getD o.quantity
  seed := ((lastNumber? .seed ps).map UInt64.ofNat).or o.seed
  lexicon := (last? .lexicon ps).or o.lexicon
  config := (last? .config ps).or o.config

theorem last?_singleton : last? f [p] = if p.flag = f then some p.value else none := by
  by_cases h : p.flag = f <;> simp [last?, h]

theorem lastNumber?_singleton :
    lastNumber? f [p] = if p.flag = f then Text.word64? p.value else none := by
  by_cases h : p.flag = f <;> simp [lastNumber?, last?_singleton, h]

theorem last?_cons : last? f (p :: ps) = (last? f ps).or (last? f [p]) := by
  simp only [last?, List.reverse_cons, List.find?_append, List.reverse_nil, List.nil_append]
  cases ps.reverse.find? (·.flag = f) <;> rfl

theorem exists_of_last?_eq_some (h : last? f ps = some v) :
    ∃ p ∈ ps, p.flag = f ∧ p.value = v := by
  obtain ⟨p, hp, rfl⟩ := Option.map_eq_some_iff.mp h
  have hflag : p.flag = f := by simpa using List.find?_some hp
  exact ⟨p, List.mem_reverse.mp (List.mem_of_find?_eq_some hp), hflag, rfl⟩

theorem lastNumber?_cons (hf : f = .quantity ∨ f = .seed) (h : ∀ p ∈ ps, p.Readable) :
    lastNumber? f (p :: ps) = (lastNumber? f ps).or (lastNumber? f [p]) := by
  simp only [lastNumber?]
  rw [last?_cons]
  cases hlast : last? f ps with
  | none => rfl
  | some v =>
    -- A later value hides an earlier one only because it can be read.
    obtain ⟨q, hq, rfl, rfl⟩ := exists_of_last?_eq_some hlast
    obtain ⟨n, hn⟩ := Option.isSome_iff_exists.mp (h q hq hf)
    simp [hn]

theorem set_eq (o : Options) (h : p.Readable) : o.set p.flag p.value = .ok (options o [p]) := by
  have hnumber (hf : p.flag = .quantity ∨ p.flag = .seed) :
      ∃ n, Text.word64? p.value = some n :=
    Option.isSome_iff_exists.mp (h hf)
  simp only [options, last?_singleton, lastNumber?_singleton]
  cases hp : p.flag with
  | quantity =>
    obtain ⟨n, hn⟩ := hnumber (.inl hp)
    simp [Options.set, hn]
  | seed =>
    obtain ⟨n, hn⟩ := hnumber (.inr hp)
    simp [Options.set, hn]
  | lexicon => simp [Options.set]
  | config => simp [Options.set]

theorem options_cons (o : Options) (h : ∀ p ∈ ps, p.Readable) :
    options o (p :: ps) = options (options o [p]) ps := by
  have hquantity := lastNumber?_cons (p := p) (.inl rfl) h
  have hseed := lastNumber?_cons (p := p) (.inr rfl) h
  have hpath (f : Flag) (x : Option String) :
      (last? f (p :: ps)).or x = (last? f ps).or ((last? f [p]).or x) := by
    rw [last?_cons, Option.or_assoc]
  simp only [options, hquantity, hseed, hpath, Options.mk.injEq, and_true]
  constructor
  · cases lastNumber? .quantity ps <;> rfl
  · cases lastNumber? .seed ps <;> rfl

theorem read_append (o : Options) (h : ∀ p ∈ ps, p.Readable) (rest : List String) :
    o.read (arguments ps ++ rest) = (options o ps).read rest := by
  induction ps generalizing o with
  | nil => rfl
  | cons p ps ih =>
    obtain ⟨hp, h⟩ := List.forall_mem_cons.mp h
    have harguments : arguments (p :: ps) ++ rest =
        p.name :: p.value :: (arguments ps ++ rest) := rfl
    rw [harguments, Options.read, p.named]
    simp only [set_eq o hp, ih _ h, options_cons o h]

theorem read_arguments (o : Options) (h : ∀ p ∈ ps, p.Readable) :
    o.read (arguments ps) = .ok (options o ps) := by
  have hread := read_append o h []
  rwa [List.append_nil] at hread

/-- Two command lines whose last flags of each kind come to the same: to one number, or one path. -/
structure SameLast (ps qs : List FlagValue) : Prop where
  quantity : lastNumber? .quantity ps = lastNumber? .quantity qs
  seed : lastNumber? .seed ps = lastNumber? .seed qs
  lexicon : last? .lexicon ps = last? .lexicon qs
  config : last? .config ps = last? .config qs

theorem SameLast.options_eq (h : SameLast ps qs) (o : Options) : options o ps = options o qs := by
  simp only [options, h.quantity, h.seed, h.lexicon, h.config]

theorem exists_last?_eq_some (hp : p ∈ ps) (hf : p.flag = f) : ∃ v, last? f ps = some v := by
  have hsome : (ps.reverse.find? (·.flag = f)).isSome :=
    List.find?_isSome.mpr ⟨p, List.mem_reverse.mpr hp, decide_eq_true hf⟩
  obtain ⟨q, hq⟩ := Option.isSome_iff_exists.mp hsome
  exact ⟨q.value, by rw [last?, hq, Option.map_some]⟩

theorem options_lexicon (hp : p ∈ ps) (hf : p.flag = .lexicon) (o : Options)
    (d : Option String) : options { o with lexicon := d } ps = options o ps := by
  obtain ⟨v, hv⟩ := exists_last?_eq_some hp hf
  simp only [options, hv, Option.some_or]

theorem exists_invalid_of_set (h : ¬ p.Readable) :
    ∃ e, ∀ o : Options, o.set p.flag p.value = .error (.invalid e) := by
  obtain ⟨hflag, hnone⟩ := Classical.not_imp.mp h
  rw [Option.not_isSome_iff_eq_none] at hnone
  rcases hflag with hq | hs
  · exact ⟨.quantity, fun o => by simp [Options.set, hq, hnone]⟩
  · exact ⟨.seed, fun o => by simp [Options.set, hs, hnone]⟩

end FlagValue

/-- What can stand behind flags with readable values: nothing, a help flag, or what no options make
valid. -/
inductive Rest : List String → Prop
  | nil : Rest []
  | help : Argument.ofString flag = .help → Rest (flag :: more)
  | invalid : (∀ o : Options, o.read rest = .error (.invalid e)) → Rest rest

theorem read_of_help (o : Options) (h : Argument.ofString flag = .help) :
    o.read (flag :: more) = .error .help := by
  cases more <;> simp [Options.read, h]

theorem exists_arguments : (arguments : List String) → ∃ ps rest,
    (∀ p ∈ ps, p.Readable) ∧ arguments = FlagValue.arguments ps ++ rest ∧ Rest rest
  | [] => ⟨[], [], by simp, rfl, .nil⟩
  | a :: more => by
    cases ha : Argument.ofString a with
    | help => exact ⟨[], a :: more, by simp, rfl, .help ha⟩
    | unknown =>
      refine ⟨[], a :: more, by simp, rfl, .invalid (e := .unknown a) fun o => ?_⟩
      cases more <;> simp [Options.read, ha]
    | flag f =>
      match more with
      | [] =>
        refine ⟨[], [a], by simp, rfl, .invalid (e := .missingValue a) fun o => ?_⟩
        simp [Options.read, ha]
      | value :: more =>
        let p : FlagValue := ⟨f, a, value, ha⟩
        by_cases hp : p.Readable
        · obtain ⟨ps, rest, hps, rfl, hrest⟩ := exists_arguments more
          exact ⟨p :: ps, rest, List.forall_mem_cons.mpr ⟨hp, hps⟩, rfl, hrest⟩
        · obtain ⟨e, he⟩ := FlagValue.exists_invalid_of_set hp
          refine ⟨[], a :: value :: more, by simp, rfl, .invalid (e := e) fun o => ?_⟩
          have hset : o.set f value = .error (.invalid e) := he o
          simp [Options.read, ha, hset]

open FlagValue in
/-- Only the last flag of each kind counts: in whatever order they stand, and whatever stands before
them, the outcome is the same.  A flag that names a lexicon hides the default one. -/
theorem run_eq_of_sameLast {σ : Type} [RandomSource σ] {ps qs : List FlagValue}
    (hps : ∀ p ∈ ps, p.Readable) (hqs : ∀ p ∈ qs, p.Readable) (h : SameLast ps qs)
    (files : Files) (source : Option UInt64 → σ) :
    (∀ d, run (arguments ps) d files source = run (arguments qs) d files source) ∧
      ((∃ p ∈ ps, p.flag = .lexicon) → ∀ d d',
        run (arguments ps) d files source = run (arguments qs) d' files source) := by
  have hrun (d) : run (arguments ps) d files source = run (arguments qs) d files source := by
    simp only [run, read_arguments _ hps, read_arguments _ hqs, h.options_eq]
  refine ⟨hrun, fun ⟨p, hp, hf⟩ d d' => ?_⟩
  have hdefault (d) : options { lexicon := d } ps = options {} ps := options_lexicon hp hf {} d
  calc run (arguments ps) d files source
    _ = run (arguments ps) d' files source := by
      simp only [run, read_arguments _ hps, hdefault]
    _ = run (arguments qs) d' files source := hrun d'

set_option maxRecDepth 10000 in
theorem run_eq_of_sameLast_repeated :
    let files : Files := fun path =>
      if path = "--seed" then some "(skeletons: Some([\"Ley \x7bnumber,2,6\x7d\"]))".toUTF8 else none
    let source (_ : Option UInt64) := FixedSource.ofPick .first
    let ps : List FlagValue :=
      [⟨.lexicon, "--lexicon", "x.ron", rfl⟩, ⟨.quantity, "-n", "2", rfl⟩,
        ⟨.quantity, "--quantity", "1", rfl⟩, ⟨.lexicon, "--lexicon", "--seed", rfl⟩,
        ⟨.seed, "--seed", "+7", rfl⟩]
    let qs : List FlagValue :=
      [⟨.seed, "--seed", "07", rfl⟩, ⟨.lexicon, "--lexicon", "--seed", rfl⟩,
        ⟨.quantity, "-n", "1", rfl⟩]
    (∀ p ∈ ps, p.Readable) ∧ (∀ p ∈ qs, p.Readable) ∧ FlagValue.SameLast ps qs ∧
      (∃ p ∈ ps, p.flag = .lexicon) ∧
      run (FlagValue.arguments ps) none files source = ⟨0, "Ley 4\n", ""⟩ ∧
      run (FlagValue.arguments qs) (some "x.ron") files source = ⟨0, "Ley 4\n", ""⟩ := by
  intro files source ps qs
  have hps : ∀ p ∈ ps, p.Readable := by decide +kernel
  have hqs : ∀ p ∈ qs, p.Readable := by decide +kernel
  have h : FlagValue.SameLast ps qs :=
    ⟨by decide +kernel, by decide +kernel, by decide +kernel, by decide +kernel⟩
  have hlexicon : ∃ p ∈ ps, p.flag = .lexicon := by decide
  have hrun : run (FlagValue.arguments ps) none files source = ⟨0, "Ley 4\n", ""⟩ := by
    decide +kernel
  have hsame := (run_eq_of_sameLast hps hqs h files source).2 hlexicon none (some "x.ron")
  exact ⟨hps, hqs, h, hlexicon, hrun, hsame.symm.trans hrun⟩

end BillGrammar.LawCommand
