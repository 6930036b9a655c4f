import ClauseInduction.CommandLine
import ClauseInduction.Proofs.Learner.Taxonomy
import ClauseInduction.Proofs.Report

/-!
# The command line and training

The command line sets up a learner in steps of its own, shows it the samples one at a time and
counts what they do.  What it prints is nevertheless what training with the chosen configuration
gives: the options choose as a set, the samples are observed as training observes them, and a
learner without taxonomy stands in for one whose taxonomy has no edges.
-/

namespace ClauseInduction

namespace CommandLine

/-!
# Options
-/

def chosenConfig (options : List String) : LearnerConfig where
  reduces := "--reduce" ∈ options ∨ "--fixed-point" ∈ options
  strategy := if "--fixed-point" ∈ options then .fixedPoint else .singlePass

theorem Options.ofArgs_eq (options : List String) :
    ofArgs options =
      { config := chosenConfig options
        usesTaxonomy := "--no-taxonomy" ∉ options
        asJson := "--json" ∈ options } := by
  induction options using List.reverseRecOn with
  | nil => rfl
  | append_singleton options option ih =>
      have hstep : ofArgs (options ++ [option]) = add (ofArgs options) option := by
        rw [ofArgs, List.foldl_append]
        rfl
      rw [hstep, ih]
      unfold add chosenConfig
      by_cases hreduce : option = "--reduce"
      · simp [hreduce]
      · by_cases hfixed : option = "--fixed-point"
        · simp [hfixed]
        · by_cases htaxonomy : option = "--no-taxonomy"
          · simp [htaxonomy]
          · by_cases hjson : option = "--json"
            · simp [hjson]
            · simp [hreduce, hfixed, htaxonomy, hjson, eq_comm]

theorem Options.ofArgs_eq_of_mem_iff {options options' : List String}
    (h : ∀ option ∈ known, option ∈ options' ↔ option ∈ options) :
    ofArgs options' = ofArgs options := by
  have hreduce := h "--reduce" (by decide)
  have hfixed := h "--fixed-point" (by decide)
  have htaxonomy := h "--no-taxonomy" (by decide)
  have hjson := h "--json" (by decide)
  rw [ofArgs_eq, ofArgs_eq]
  simp only [chosenConfig, hreduce, hfixed, htaxonomy, hjson]

/-!
# Samples one at a time
-/

theorem observeEach_eq (position : Nat) (outcomes : List Outcome) (L : Learner)
    (samples : List Sample) :
    observeEach position outcomes L samples =
      match L.train samples with
      | (.error fault, _) => .error ⟨position + fault.position, fault.clash⟩
      | (.ok rest, M) => .ok (M, outcomes ++ rest) := by
  induction samples generalizing position outcomes L with
  | nil => simp [observeEach, Learner.train]
  | cons s samples ih =>
      rw [observeEach, Learner.train]
      rcases L.observe s with ⟨clash | outcome, M⟩
      · rfl
      · simp only [ih]
        rcases M.train samples with ⟨fault | rest, N⟩
        · simp only [Nat.add_assoc, Nat.add_comm 1]
        · simp only [List.append_assoc, List.singleton_append]

/-!
# Setting up
-/

def startOf (options : List String) (facts : List Literal) : Except TaxonomyError Learner :=
  if "--no-taxonomy" ∈ options then .ok (Learner.new none) else Learner.ofFacts facts

/-- Either both ways of setting up find the same fault in the facts, or the two learners differ in
nothing that can be asked of their taxonomies. -/
theorem startOf_cases (options : List String) (facts : List Literal) :
    (∃ e, taxonomyOf (Options.ofArgs options) facts = .error e ∧
      startOf options facts = .error e) ∨
    (∃ used given, taxonomyOf (Options.ofArgs options) facts = .ok used ∧
      startOf options facts = .ok (Learner.new given) ∧
      (Taxonomy.rule used).AgreesWith (Taxonomy.rule given)) := by
  simp only [taxonomyOf, startOf, Options.ofArgs_eq]
  by_cases hforbidden : "--no-taxonomy" ∈ options
  · exact Or.inr ⟨none, none, by simp [hforbidden], by simp [hforbidden], fun _ _ _ => rfl⟩
  · by_cases hfacts : facts = []
    · subst hfacts
      refine Or.inr ⟨none, some ∅, by simp, ?_, ?_⟩
      · simp only [hforbidden, if_false, Learner.ofFacts, Taxonomy.ofFacts_nil]
      · exact fun a b hab => (Taxonomy.rule_empty_agreesWith_none a b hab).symm
    · cases hT : Taxonomy.ofFacts facts with
      | error e =>
          exact Or.inl ⟨e, by simp [hforbidden, hfacts], by simp [hforbidden, Learner.ofFacts, hT]⟩
      | ok T =>
          refine Or.inr ⟨some T, some T, by simp [hforbidden, hfacts], ?_, fun _ _ _ => rfl⟩
          simp [hforbidden, Learner.ofFacts, hT]

theorem exists_eq_new_of_startOf {options : List String} {facts : List Literal} {L : Learner}
    (h : startOf options facts = .ok L) : ∃ taxonomy, L = Learner.new taxonomy := by
  rcases startOf_cases options facts with ⟨e, -, he⟩ | ⟨used, given, -, hgiven, -⟩
  · rw [he] at h
    cases h
  · rw [hgiven] at h
    cases h
    exact ⟨given, rfl⟩

/-!
# What is printed
-/

/-- Training on the task in the file, as the options ask for it, does to the samples what the
outcomes say and ends with the learner `M`. -/
def Trains (options : List String) (contents : Option ByteArray) (outcomes : List Outcome)
    (M : Learner) : Prop :=
  ∃ t L, Task.load contents = .ok t ∧ startOf options t.facts = .ok L ∧
    (L.configure (chosenConfig options)).train t.samples = (.ok outcomes, M)

def printed (options : List String) (r : Report) : String :=
  if "--json" ∈ options then r.toJson.pretty ++ "\n"
  else summary r.sampleCount (r.outcomes.count .ignoredNegative) r.changeCount r.hypothesis

theorem render_ofArgs (options : List String) (H : Option Clause) (outcomes : List Outcome) :
    render (Options.ofArgs options) H outcomes = printed options ⟨H, outcomes⟩ := by
  have hchanges : (outcomes.filter Outcome.changes).length = outcomes.countP Outcome.changes :=
    List.countP_eq_length_filter.symm
  have hignored : (outcomes.filter fun outcome => outcome = .ignoredNegative).length =
      outcomes.count .ignoredNegative := by
    rw [List.count, List.countP_eq_length_filter]
    rfl
  simp only [render, printed, Options.ofArgs_eq, decide_eq_true_eq, hchanges, hignored]
  rfl

theorem observeEach_learnerOf {used given : Option Taxonomy}
    (h : (Taxonomy.rule used).AgreesWith (Taxonomy.rule given)) (options : List String)
    (samples : List Sample) :
    observeEach 0 [] (learnerOf (Options.ofArgs options) used) samples =
      match ((Learner.new given).configure (chosenConfig options)).train samples with
      | (.error fault, _) => .error fault
      | (.ok outcomes, M) => .ok (M.useTaxonomy used, outcomes) := by
  have hstart : learnerOf (Options.ofArgs options) used =
      ((Learner.new given).configure (chosenConfig options)).useTaxonomy used := by
    rw [learnerOf, Options.ofArgs_eq]
    rfl
  rw [hstart, observeEach_eq, Learner.train_useTaxonomy h]
  rcases ((Learner.new given).configure (chosenConfig options)).train samples with
    ⟨fault | outcomes, M⟩
  · simp only [Nat.zero_add]
  · simp only [List.nil_append]

theorem exists_run_iff {options : List String} {contents : Option ByteArray}
    {outcomes : List Outcome} {H : Option Clause} :
    (∃ L, run (Options.ofArgs options) contents = .ok (L, outcomes) ∧ L.hypothesis = H) ↔
      ∃ M, Trains options contents outcomes M ∧ M.hypothesis = H := by
  simp only [run, learn, Trains]
  cases Task.load contents with
  | error e => simp
  | ok t =>
      rcases startOf_cases options t.facts with
        ⟨e, hused, hgiven⟩ | ⟨used, given, hused, hgiven, hagree⟩
      · simp [hused, hgiven]
      · simp only [hused, observeEach_learnerOf hagree, hgiven, Except.ok.injEq, exists_eq_left',
          exists_and_left]
        rcases ((Learner.new given).configure (chosenConfig options)).train t.samples with
          ⟨fault | rest, M⟩
        · simp
        · constructor
          · intro h
            rcases h with ⟨L, hL, rfl⟩
            cases hL
            exact ⟨M, rfl, rfl⟩
          · intro h
            rcases h with ⟨N, hN, rfl⟩
            cases hN
            exact ⟨M.useTaxonomy used, rfl, rfl⟩

theorem exists_trains_iff {options : List String} {contents : Option ByteArray} :
    (∃ outcomes M, Trains options contents outcomes M) ↔
      ∃ L outcomes, run (Options.ofArgs options) contents = .ok (L, outcomes) := by
  constructor
  · intro h
    rcases h with ⟨outcomes, M, hM⟩
    rcases exists_run_iff.mpr ⟨M, hM, rfl⟩ with ⟨L, hL, -⟩
    exact ⟨L, outcomes, hL⟩
  · intro h
    rcases h with ⟨L, outcomes, hL⟩
    rcases exists_run_iff.mp ⟨L, hL, rfl⟩ with ⟨M, hM, -⟩
    exact ⟨outcomes, M, hM⟩

theorem output_respond_of_trains {file : String} {options : List String}
    {read : String → Option ByteArray} {outcomes : List Outcome} {M : Learner}
    (h : Trains options (read file) outcomes M) :
    (respond (file :: options) read).output = printed options ⟨M.hypothesis, outcomes⟩ := by
  rcases exists_run_iff.mpr ⟨M, h, rfl⟩ with ⟨L, hL, hhypothesis⟩
  simp only [respond, hL, render_ofArgs, hhypothesis]

/-- The program succeeds exactly when training does, and then prints the report of the outcomes and
of the hypothesis that training gives; otherwise it prints nothing on its first channel.  Of the
options only the known ones matter, and not their order or their number. -/
theorem status_eq_zero_iff_trains (file : String) (options : List String)
    (read : String → Option ByteArray) :
    ((respond (file :: options) read).status = 0 ↔
      ∃ outcomes M, Trains options (read file) outcomes M) ∧
    (∀ outcomes M, Trains options (read file) outcomes M →
      (respond (file :: options) read).output = printed options ⟨M.hypothesis, outcomes⟩) ∧
    ((¬ ∃ outcomes M, Trains options (read file) outcomes M) →
      (respond (file :: options) read).status = 1 ∧
        (respond (file :: options) read).output = "") ∧
    ∀ options', (∀ option ∈ Options.known, option ∈ options' ↔ option ∈ options) →
      (respond (file :: options') read).status = (respond (file :: options) read).status ∧
        (respond (file :: options') read).output = (respond (file :: options) read).output := by
  refine ⟨?_, ?_, ?_, ?_⟩
  · rw [exists_trains_iff, respond]
    rcases run (Options.ofArgs options) (read file) with failure | ⟨L, outcomes⟩
    · simp
    · simp
  · exact fun outcomes M hM => output_respond_of_trains hM
  · intro hnone
    rw [exists_trains_iff] at hnone
    rw [respond]
    rcases hresult : run (Options.ofArgs options) (read file) with failure | ⟨L, outcomes⟩
    · exact ⟨rfl, rfl⟩
    · exact absurd ⟨L, outcomes, hresult⟩ hnone
  · intro options' h
    simp only [respond, Options.ofArgs_eq_of_mem_iff h]
    rcases run (Options.ofArgs options) (read file) with failure | ⟨L, outcomes⟩
    · exact ⟨rfl, rfl⟩
    · exact ⟨rfl, rfl⟩

/-!
# What is read in the output
-/

theorem Trains.fits {options : List String} {contents : Option ByteArray}
    {outcomes : List Outcome} {M : Learner} (h : Trains options contents outcomes M) :
    M.Fits (Json.maxDepth - 8) := by
  rcases h with ⟨t, L, hload, hstart, htrain⟩
  rcases Task.exists_parse_of_load hload with ⟨text, hparse⟩
  rcases exists_eq_new_of_startOf hstart with ⟨taxonomy, rfl⟩
  rw [Learner.eq_observeAll_of_train htrain]
  exact Learner.fits_observeAll_of_parse hparse taxonomy _ (List.Subset.refl _)

/-- The JSON text that is printed can be read, whatever the task was, and tells the outcomes of
training and the hypothesis at its end. -/
theorem exists_toldBy_output {file : String} {options : List String}
    {read : String → Option ByteArray} {outcomes : List Outcome} {M : Learner}
    (hjson : "--json" ∈ options) (h : Trains options (read file) outcomes M)
    (hcount : outcomes.length < Nat.pow 2 64) :
    ∃ v, Json.Reader.run Json.Scanned.value (respond (file :: options) read).output = .ok v ∧
      Report.ToldBy ⟨M.hypothesis, outcomes⟩ v := by
  rw [output_respond_of_trains h, printed, if_pos hjson]
  refine Report.exists_toldBy_of_pretty hcount fun H hH => ?_
  exact fun l hl t ht => (h.fits H hH l hl t ht).mono (by decide)

def petTask : Task :=
  ⟨[Taxonomy.isa "cat" "pet", Taxonomy.isa "dog" "pet"],
    [⟨true, [⟨true, "liked", [.const "cat"]⟩]⟩, ⟨false, [⟨true, "liked", [.const "rock"]⟩]⟩,
      ⟨true, [⟨true, "liked", [.const "dog"]⟩]⟩]⟩

theorem load_petTask : Task.load (some petTask.write.toUTF8) = .ok petTask := by
  refine Task.load_write ?_ (by decide)
  simp [petTask, Task.Saturated, Literal.Saturated, Term.Saturated, Taxonomy.isa]

def petReport : String :=
  String.intercalate "\n"
    ["\x7b", "  \"hypothesis\": \x7b", "    \"literals\": [", "      \x7b",
      "        \"polarity\": true,", "        \"atom\": \x7b",
      "          \"predicate\": \"liked\",", "          \"args\": [", "            \x7b",
      "              \"type\": \"Constant\",", "              \"name\": \"pet\"",
      "            \x7d", "          ]", "        \x7d", "      \x7d", "    ]", "  \x7d,",
      "  \"text\": \"liked(pet)\",", "  \"samples\": 3,", "  \"changes\": 2", "\x7d", ""]

theorem respond_petTask :
    (respond ["task.json", "--fixed-point"] fun _ => some petTask.write.toUTF8).status = 0 ∧
    (respond ["task.json", "--fixed-point", "--plain", "--fixed-point"]
      fun _ => some petTask.write.toUTF8).output =
        "Processed 3 samples (1 negative ignored, 2 hypothesis changes)\nHypothesis: liked(pet)\n" ∧
    (respond ["task.json", "--json", "--verbose"]
      fun _ => some petTask.write.toUTF8).output = petReport ∧
    (respond ["task.json", "--json"] fun _ => none).output = "" := by
  have htrains : ∃ M, Trains ["--fixed-point"] (some petTask.write.toUTF8)
      [.adopted, .ignoredNegative, .generalized false] M ∧
      M.hypothesis = some (.ofList [⟨true, "liked", [.const "pet"]⟩]) :=
    ⟨_, ⟨petTask, _, load_petTask, rfl, rfl⟩, by decide⟩
  have htrainsJson : ∃ M, Trains ["--json", "--verbose"] (some petTask.write.toUTF8)
      [.adopted, .ignoredNegative, .generalized false] M ∧
      M.hypothesis = some (.ofList [⟨true, "liked", [.const "pet"]⟩]) :=
    ⟨_, ⟨petTask, _, load_petTask, rfl, rfl⟩, by decide⟩
  rcases htrains with ⟨M, hM, hhypothesis⟩
  rcases htrainsJson with ⟨N, hN, hsame⟩
  rcases status_eq_zero_iff_trains "task.json" ["--fixed-point"]
    fun _ => some petTask.write.toUTF8 with ⟨hstatus, houtput, -, hoptions⟩
  have hunread : ¬ ∃ outcomes M, Trains ["--json"] none outcomes M := by
    rintro ⟨outcomes, M, t, L, hload, -⟩
    cases hload
  refine ⟨hstatus.mpr ⟨_, M, hM⟩, ?_, ?_, ?_⟩
  · rw [(hoptions ["--fixed-point", "--plain", "--fixed-point"] (by decide)).right,
      houtput _ M hM, hhypothesis]
    decide
  · rw [(status_eq_zero_iff_trains "task.json" ["--json", "--verbose"]
      fun _ => some petTask.write.toUTF8).right.left _ N hN, hsame]
    decide +kernel
  · exact ((status_eq_zero_iff_trains "task.json" ["--json"] fun _ => none).right.right.left
      hunread).right

end CommandLine

end ClauseInduction
