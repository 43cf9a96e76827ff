import DebugHierarchy.Proofs.Diagnosing
import DebugHierarchy.Proofs.Naming

/-!
One script under two numberings.

Which number a string has depends on the table and on what it knew before. Nothing that comes of a
script depends on it: the designs that two tables give have the same strings in the same places, and
so have what is extracted from them and the diagnoses of errors.

* `Script.build_reads`, `Script.build_outcome`: one numbering against the strings themselves;
* `numbering_irrelevant`: two numberings against each other.
-/

namespace DebugHierarchy

/-- Every name of a design has a text, and with these it is `e`. -/
def Design.ReadsAs (names : NameTable) (d : Design Name) (e : Design String) : Prop :=
  d.map names.text = e.map .ok

def Hierarchy.ReadsAs (names : NameTable) (h : Hierarchy Name) (g : Hierarchy String) : Prop :=
  h.map names.text = g.map .ok

def BuildError.ReadsAs (names : NameTable) (e : BuildError Name) (f : BuildError String) : Prop :=
  e.map names.text = f.map .ok

/-- What comes of the design `d` is, with the texts of names, what comes of the design `draft`. An
error has the same diagnosis in both. -/
inductive OutcomeReads (names : NameTable) (d : Design Name) (draft : Design String) :
    Except (Failure Name) (Hierarchy Name) → Except (Failure String) (Hierarchy String) → Prop
  | hierarchy {h g} : h.ReadsAs names g → OutcomeReads names d draft (.ok h) (.ok g)
  | dangling (what) : OutcomeReads names d draft (.error (.dangling what)) (.error (.dangling what))
  | invalid {e f report} : e.ReadsAs names f → e.diagnose names.text d = .ok report →
      f.diagnose .ok draft = .ok report →
      OutcomeReads names d draft (.error (.invalid e)) (.error (.invalid f))

/-- The same comes of two designs, up to the numbers of names: hierarchies with the same texts, the
same dangling handle, or errors with the same texts and the same diagnosis. -/
inductive SameOutcome (names₁ names₂ : NameTable) (d₁ d₂ : Design Name) :
    Except (Failure Name) (Hierarchy Name) → Except (Failure Name) (Hierarchy Name) → Prop
  | hierarchies {h₁ h₂ g} : h₁.ReadsAs names₁ g → h₂.ReadsAs names₂ g →
      SameOutcome names₁ names₂ d₁ d₂ (.ok h₁) (.ok h₂)
  | dangling (what) :
      SameOutcome names₁ names₂ d₁ d₂ (.error (.dangling what)) (.error (.dangling what))
  | invalid {e₁ e₂ f report} : e₁.ReadsAs names₁ f → e₂.ReadsAs names₂ f →
      e₁.diagnose names₁.text d₁ = .ok report → e₂.diagnose names₂.text d₂ = .ok report →
      SameOutcome names₁ names₂ d₁ d₂ (.error (.invalid e₁)) (.error (.invalid e₂))

/-- Two tables give the same for one script: the same fault, or designs with the same texts, whose
extractions come to the same under all options. -/
inductive SameBuild : Except Fault (Design Name) × NameTable →
    Except Fault (Design Name) × NameTable → Prop
  | fault (fault) (names₁ names₂) : SameBuild (.error fault, names₁) (.error fault, names₂)
  | design {d₁ d₂ names₁ names₂ e} : d₁.ReadsAs names₁ e → d₂.ReadsAs names₂ e →
      (∀ options, SameOutcome names₁ names₂ d₁ d₂
        (d₁.extract options).outcome (d₂.extract options).outcome) →
      SameBuild (.ok d₁, names₁) (.ok d₂, names₂)

namespace NameTable

variable (t : NameTable)

instance : Inhabited t.Known := ⟨⟨"", t.knows_empty⟩⟩

theorem numberKnown_default : t.numberKnown default = default := number_of_text t.text_default

theorem text_comp_numberKnown : t.text ∘ t.numberKnown = Except.ok ∘ Subtype.val :=
  funext fun s => text_number s.2

end NameTable

theorem BuildError.map_map {ν μ κ : Type} (f : μ → κ) (g : ν → μ) (e : BuildError ν) :
    (e.map g).map f = e.map (f ∘ g) := by
  cases e <;> rfl

section Build

variable {script : Script} {known learned : NameTable} {d : Design Name}

/-- Read as texts, the design of a script is its draft. -/
theorem Script.build_reads (built : script.build known = (.ok d, learned)) :
    ∃ last t, script.run = .ok last t ∧ d.ReadsAs learned t.design := by
  obtain ⟨last, t, run, e, strings, numbers⟩ := Script.build_known built
  refine ⟨last, t, run, ?_⟩
  rw [Design.ReadsAs, ← strings, ← numbers, Design.map_map, Design.map_map]
  exact congrArg (e.map ·) learned.text_comp_numberKnown

/-- Read as texts, what comes of the design of a script is what comes of its draft. -/
theorem Script.build_outcome (built : script.build known = (.ok d, learned)) (options : Options) :
    ∃ last t, script.run = .ok last t ∧
      OutcomeReads learned d t.design (d.extract options).outcome
        (t.design.extract options).outcome := by
  obtain ⟨last, t, run, e, strings, numbers⟩ := Script.build_known built
  refine ⟨last, t, run, ?_⟩
  have linked : t.design.WellLinked :=
    Design.Grows.wellLinked (Script.run_grows run) Design.wellLinked_empty
  obtain ⟨⟨F, n⟩, _⟩ := Script.run_nesting run
  have numbered : d.extract options = (e.extract options).relabel (.names learned.numberKnown) := by
    rw [← numbers]
    exact (e.alike_map _).extract_eq (Relabeling.names_faithful learned.number_injective) options
  have drafted : t.design.extract options = (e.extract options).relabel (.names Subtype.val) := by
    rw [← strings]
    exact (e.alike_map _).extract_eq (Relabeling.names_faithful Subtype.val_injective) options
  have texts := learned.text_comp_numberKnown
  rw [numbered]
  cases outcome : (e.extract options).outcome with
  | ok h =>
    rw [drafted, Extraction.relabel, Extraction.relabel, outcome]
    apply OutcomeReads.hierarchy
    rw [Hierarchy.ReadsAs, ← Hierarchy.relabel_names, ← Hierarchy.relabel_names,
      Relabeling.hierarchy_twice, Relabeling.hierarchy_twice, Relabeling.names_comp,
      Relabeling.names_comp, texts]
  | error failure =>
    cases failure with
    | dangling what =>
      rw [drafted, Extraction.relabel, Extraction.relabel, outcome]
      dsimp only [Failure.relabel]
      rw [Dangling.relabel_names, Dangling.relabel_names]
      exact .dangling what
    | invalid error =>
      have within : (error.map Subtype.val).Within t.design := by
        have failed : (t.design.extract options).outcome =
            .error (.invalid (error.map Subtype.val)) := by
          rw [drafted, Extraction.relabel, outcome, ← BuildError.relabel_names]
          rfl
        exact n.problem_within (n.problem_of_failure failed)
      obtain ⟨report, diagnosed⟩ := within.diagnosed linked
      rw [drafted, Extraction.relabel, Extraction.relabel, outcome]
      dsimp only [Failure.relabel]
      rw [BuildError.relabel_names, BuildError.relabel_names]
      apply OutcomeReads.invalid _ _ diagnosed
      · rw [BuildError.ReadsAs, BuildError.map_map, BuildError.map_map, texts]
      · rw [← numbers]
        rw [← strings, BuildError.diagnose_map _ Subtype.val_injective rfl, ← texts] at diagnosed
        rw [← diagnosed]
        exact BuildError.diagnose_map _ learned.number_injective learned.numberKnown_default e error

end Build

/-! ### Against each other -/

/-- What comes of two designs is the same if it is the same as what comes of one draft. -/
theorem OutcomeReads.same {names₁ names₂ : NameTable} {d₁ d₂ : Design Name} {draft : Design String}
    {x₁ x₂ : Except (Failure Name) (Hierarchy Name)}
    {y : Except (Failure String) (Hierarchy String)} (first : OutcomeReads names₁ d₁ draft x₁ y)
    (second : OutcomeReads names₂ d₂ draft x₂ y) :
    SameOutcome names₁ names₂ d₁ d₂ x₁ x₂ := by
  cases first with
  | hierarchy reads₁ =>
    cases second with
    | hierarchy reads₂ => exact .hierarchies reads₁ reads₂
  | dangling what =>
    cases second with
    | dangling => exact .dangling what
  | invalid reads₁ report₁ diagnosed₁ =>
    cases second with
    | invalid reads₂ report₂ diagnosed₂ =>
      cases diagnosed₁.symm.trans diagnosed₂
      exact .invalid reads₁ reads₂ report₁ report₂

/-- **Numberings.** Whatever two tables knew before, they give the same for one script,
the numbers of names aside. -/
theorem numbering_irrelevant (script : Script) (known₁ known₂ : NameTable) :
    SameBuild (script.build known₁) (script.build known₂) := by
  cases run : script.run with
  | error fault t =>
    have built (known : NameTable) :
        script.build known = (.error fault, known.addAll t.mentions.toList) := by
      rw [Script.build, run]
    rw [built, built]
    exact .fault ..
  | ok last t =>
    have built (known : NameTable) :
        ∃ d, script.build known = (.ok d, known.addAll t.mentions.toList) := by
      rw [Script.build, run]
      exact ⟨_, rfl⟩
    obtain ⟨d₁, built₁⟩ := built known₁
    obtain ⟨d₂, built₂⟩ := built known₂
    obtain ⟨_, t₁, run₁, reads₁⟩ := Script.build_reads built₁
    obtain ⟨_, t₂, run₂, reads₂⟩ := Script.build_reads built₂
    cases run.symm.trans run₁
    cases run.symm.trans run₂
    rw [built₁, built₂]
    refine .design reads₁ reads₂ fun options => ?_
    obtain ⟨_, u₁, run₁, outcome₁⟩ := Script.build_outcome built₁ options
    obtain ⟨_, u₂, run₂, outcome₂⟩ := Script.build_outcome built₂ options
    cases run.symm.trans run₁
    cases run.symm.trans run₂
    exact outcome₁.same outcome₂

/-- The numbers do differ: a table that has learned another string first counts on from there. -/
example : (Script.module "A" [] .done .done).build .fresh ≠
    (Script.module "A" [] .done .done).build (.add .fresh "B") := by
  decide +kernel

end DebugHierarchy
