import SemanticParsing.Proofs.EpochRankings
import SemanticParsing.Proofs.RuleIndex
import SemanticParsing.Proofs.WeightUpdate
/-! An epoch that records the names it meets is one step of the batch perceptron: every weight is
moved by what the rankings with the old weights contrast. -/
namespace SemanticParsing

variable {σ α : Type} [Scalar α]

namespace Learning

/-- The target of an example and a competitor drawn for it, if it has both, and the generator
afterwards. Without a target nothing is drawn. -/
def contrast? (metric : Metric) (e : Example) (parses : List (Parse α)) (g : Random.Generator) :
    Option (Contrast α) × Random.Generator :=
  let decoding := Decoding.ofParses parses e metric
  match decoding.target.bind (parses[·]?) with
  | none => (none, g)
  | some target =>
    let (choice, g) := g.choose? decoding.competitors
    ((choice.bind (parses[·]?)).map fun chosen => ⟨target.features, chosen.features⟩, g)

def contrasts (metric : Metric) :
    List (Example × List (Parse α)) → Random.Generator → List (Contrast α)
  | [], _ => []
  | (e, parses) :: rest, g =>
    (contrast? metric e parses g).1.toList ++ contrasts metric rest (contrast? metric e parses g).2

variable {metric : Metric} {e : Example} {parses : List (Parse α)} {g : Random.Generator}
  {p : Progress α} {c : Contrast α} {ranked : List (Example × List (Parse α))} {name : String}

theorem draw_eq (p : Progress α) (metric : Metric) (e : Example) (parses : List (Parse α)) :
    (p.draw metric e parses).generator = (contrast? metric e parses p.generator).2 ∧
      (p.draw metric e parses).pending =
        p.pending ++ (contrast? metric e parses p.generator).1.toList := by
  cases found : (Decoding.ofParses parses e metric).target.bind (parses[·]?) with
  | none => simp [Progress.draw, contrast?, found]
  | some target =>
    cases drawn : (p.generator.choose? (Decoding.ofParses parses e metric).competitors).1.bind
      (parses[·]?) <;> simp [Progress.draw, contrast?, found, drawn]

theorem mem_parses_of_contrast? (h : (contrast? metric e parses g).1 = some c) :
    (∃ target ∈ parses, target.features = c.target) ∧
      ∃ chosen ∈ parses, chosen.features = c.chosen := by
  rw [contrast?] at h
  split at h
  · cases h
  · next target found =>
    obtain ⟨i, -, atTarget⟩ := Option.bind_eq_some_iff.mp found
    obtain ⟨chosen, found', rfl⟩ := Option.map_eq_some_iff.mp h
    obtain ⟨j, -, atChosen⟩ := Option.bind_eq_some_iff.mp found'
    exact ⟨⟨target, List.mem_of_getElem? atTarget, rfl⟩,
      ⟨chosen, List.mem_of_getElem? atChosen, rfl⟩⟩

theorem mem_parses_of_mem_contrasts (h : c ∈ contrasts metric ranked g) :
    ∃ pair ∈ ranked, (∃ target ∈ pair.2, target.features = c.target) ∧
      ∃ chosen ∈ pair.2, chosen.features = c.chosen := by
  induction ranked generalizing g with
  | nil => simp [contrasts] at h
  | cons pair rest ih =>
    rw [contrasts, List.mem_append] at h
    obtain here | later := h
    · exact ⟨pair, List.mem_cons_self, mem_parses_of_contrast? (Option.mem_toList.mp here)⟩
    · obtain ⟨other, member, parts⟩ := ih later
      exact ⟨other, List.mem_cons_of_mem pair member, parts⟩

theorem pending_visitEach (p : Progress α) (metric : Metric) (records : Bool)
    (ranked : List (Example × List (Parse α))) :
    (p.visitEach metric records ranked).pending =
      p.pending ++ contrasts metric ranked p.generator := by
  induction ranked generalizing p with
  | nil => simp [Progress.visitEach, contrasts]
  | cons pair rest ih =>
    rw [Progress.visitEach, List.foldl_cons, ← Progress.visitEach, ih, contrasts,
      ← List.append_assoc]
    cases records <;> simp [Progress.visit, draw_eq]

theorem mem_vocabulary_visitEach :
    name ∈ (p.visitEach metric true ranked).vocabulary ↔
      name ∈ p.vocabulary ∨ ∃ pair ∈ ranked, ∃ parse ∈ pair.2, name ∈ parse.features := by
  induction ranked generalizing p with
  | nil => simp [Progress.visitEach]
  | cons pair rest ih =>
    rw [Progress.visitEach, List.foldl_cons, ← Progress.visitEach, ih, vocabulary_visit,
      if_pos rfl, mem_record]
    simp [or_assoc]

theorem mem_vocabulary_of_differsAt
    (cancels : ((Scalar.zero : α) - Scalar.zero == Scalar.zero) = true)
    (member : c ∈ contrasts metric ranked g) (differs : c.differsAt name = true) :
    name ∈ (p.visitEach metric true ranked).vocabulary := by
  obtain ⟨pair, inside, ⟨target, isParse, ofTarget⟩, chosen, isParse', ofChosen⟩ :=
    mem_parses_of_mem_contrasts member
  refine mem_vocabulary_visitEach.mpr (.inr ⟨pair, inside, ?_⟩)
  by_contra unrecorded
  have inTarget : name ∉ c.target := fun has => unrecorded ⟨target, isParse, ofTarget ▸ has⟩
  have inChosen : name ∉ c.chosen := fun has => unrecorded ⟨chosen, isParse', ofChosen ▸ has⟩
  simp [Contrast.differsAt, Contrast.difference, Table.number_of_not_mem inTarget,
    Table.number_of_not_mem inChosen, cancels] at differs

end Learning

namespace Learner

variable {learner : Learner σ α} {state : σ}

def contrasts (learner : Learner σ α) (rankings : List (List (Parse α))) : List (Contrast α) :=
  Learning.contrasts learner.config.metric (learner.visited.zip rankings)
    (learner.generator.permutation learner.examples.size).2

theorem pending_progress (rankings : List (List (Parse α))) :
    (learner.progress rankings).pending = learner.contrasts rankings := by
  rw [progress, Learning.pending_visitEach]
  rfl

theorem next_of_done {report : EpochReport}
    (done : (learner.next.run state).1.answer = some (.ok report)) :
    ∃ rankings after, learner.rankings.run.run state = (.ok rankings, after) ∧
      learner.next.run state =
        (Step.ofEpoch (learner.conclude (learner.progress rankings, none)), after) := by
  rw [next_eq] at done ⊢
  split at done
  case isTrue => cases done
  case isFalse unfinished =>
    rw [if_neg unfinished]
    cases fails : learner.failure? state with
    | none =>
      obtain ⟨rankings, after, ranked, epoch⟩ := runEpoch_of_success fails
      exact ⟨rankings, after, ranked, by rw [epoch]; rfl⟩
    | some e =>
      obtain ⟨q, after, epoch⟩ := runEpoch_of_failure fails
      rw [epoch] at done
      cases done

theorem mem_vocabulary_progress (cancels : ((Scalar.zero : α) - Scalar.zero == Scalar.zero) = true)
    (records : learner.recordsVocabulary = true) {rankings : List (List (Parse α))}
    {c : Contrast α} {name : String} (member : c ∈ learner.contrasts rankings)
    (differs : c.differsAt name = true) :
    name ∈ (learner.progress rankings).vocabulary := by
  rw [progress, records]
  exact Learning.mem_vocabulary_of_differsAt cancels member differs

theorem getElem?_conclude (cancels : ((Scalar.zero : α) - Scalar.zero == Scalar.zero) = true)
    (records : learner.recordsVocabulary = true) (rankings : List (List (Parse α)))
    (name : String) :
    (learner.conclude (learner.progress rankings, none)).1.model.weights[name]? =
      (learner.contrasts rankings).foldl (Contrast.moveEntry learner.config.eta name)
        learner.model.weights[name]? := by
  change (Learning.applyAll _ _ _ _)[name]? = _
  rw [Learning.getElem?_applyAll (Learning.nodup_toList _), pending_progress]
  simp only [Std.ExtTreeSet.mem_toList]
  split
  case isTrue => rfl
  case isFalse unknown =>
    refine (Contrast.foldl_moveEntry_of_not_differs fun c member => ?_).symm
    by_contra differs
    exact unknown (mem_vocabulary_progress cancels records member (by simpa using differs))

/-- Let an epoch that records what it meets not be stopped. Its examples were ranked with the
weights it started from. The weight of each name is then the old one with the contrasts of these
rankings added one after the other, `eta` times the difference of the counts where that is not
zero; a name where it is always zero keeps its entry or has none as before; and the vocabulary lacks
no name that is moved. -/
theorem epoch_is_batch_step (learner : Learner σ Float) (state : σ) (report : EpochReport)
    (records : learner.epoch = 0 ∨ learner.config.vocabulary = .growing)
    (done : (learner.next.run state).1.answer = some (.ok report)) :
    ∃ rankings, (learner.rankings.run.run state).1 = .ok rankings ∧
      report.updates = (learner.contrasts rankings).length ∧
      ∀ name,
        (learner.next.run state).1.learner.model.weights.number name =
          ((learner.contrasts rankings).filter (·.differsAt name)).foldl
            (fun weight c => weight + learner.config.eta * c.difference name)
            (learner.model.weights.number name) ∧
        ((∀ c ∈ learner.contrasts rankings, c.differsAt name = false) →
          (learner.next.run state).1.learner.model.weights[name]? =
            learner.model.weights[name]?) ∧
        ∀ c ∈ learner.contrasts rankings, c.differsAt name = true →
          name ∈ (learner.next.run state).1.learner.vocabulary := by
  have cancels : ((Scalar.zero : Float) - Scalar.zero == Scalar.zero) = true := by decide
  have recording : learner.recordsVocabulary = true := by simpa [recordsVocabulary] using records
  obtain ⟨rankings, after, ranked, step⟩ := next_of_done done
  rw [step] at done ⊢
  refine ⟨rankings, by rw [ranked], ?_, fun name => ?_⟩
  · cases done
    exact congrArg List.length (pending_progress rankings)
  have entry := getElem?_conclude cancels recording rankings name
  refine ⟨?_, fun unmoved => ?_, fun c member differs => ?_⟩
  · change (learner.conclude (learner.progress rankings, none)).1.model.weights.number name = _
    rw [Table.number_eq, entry, Contrast.getD_foldl_moveEntry, Table.number_eq]
  · exact entry.trans (Contrast.foldl_moveEntry_of_not_differs unmoved)
  · exact mem_vocabulary_progress cancels recording member differs

def undecided : Learner Unit Float :=
  start { grammar := Grammar.ambiguous, features := Feature.rules }
    [{ input := "x", meaning := some (.int 2) }] LearningConfig.standard

theorem undecided_batch_step :
    undecided.epoch = 0 ∧ (undecided.next.run ()).1.answer = some (.ok ⟨0, 0, 1, 1⟩) ∧
      ∃ rankings, (undecided.rankings.run.run ()).1 = .ok rankings ∧
        (undecided.contrasts rankings).length = 1 ∧
        (undecided.next.run ()).1.learner.model.weights.number "Rule($E, x, 2)" =
          ((undecided.contrasts rankings).filter (·.differsAt "Rule($E, x, 2)")).foldl
            (fun weight c => weight + 0.1 * c.difference "Rule($E, x, 2)") 0.0 := by
  have done : (undecided.next.run ()).1.answer = some (.ok ⟨0, 0, 1, 1⟩) := by decide +kernel
  obtain ⟨rankings, ranked, updates, weights⟩ :=
    epoch_is_batch_step undecided () ⟨0, 0, 1, 1⟩ (.inl rfl) done
  exact ⟨rfl, done, rankings, ranked, updates.symm, (weights "Rule($E, x, 2)").1⟩

end Learner

end SemanticParsing
