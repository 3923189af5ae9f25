import SemanticParsing.Proofs.MirrorRun
import SemanticParsing.Proofs.Reach
import SemanticParsing.Proofs.ReadImage
/-! Programs run in one of two scopes that are apart do not tell on the other: not in what is bound
there, and not in the answers that are given there. -/
namespace SemanticParsing

abbrev Answer := Except RunError Value

structure Request where
  scope : ScopeId
  fuel : Nat
  program : String

def Request.run (request : Request) (heap : Heap) : Answer × Heap :=
  (Evaluator.run request.fuel request.program request.scope).run.run heap

/-- The requests, run one after the other, each with its answer, and the heap that is left. -/
def session : List Request → Heap → List (Request × Answer) × Heap
  | [], heap => ([], heap)
  | request :: rest, heap =>
    ((request, (request.run heap).1) :: (session rest (request.run heap).2).1,
      (session rest (request.run heap).2).2)

def answersIn (s : ScopeId) (log : List (Request × Answer)) : List Answer :=
  (log.filter (·.1.scope = s)).map Prod.snd

/-- What a program that was run in `s` leaves of what is reached from `t`. -/
structure Heap.LeavesAlone (heap : Heap) (s t : ScopeId) (outcome : Answer × Heap) : Prop where
  reaches : ∀ u, outcome.2.Reaches t u ↔ heap.Reaches t u
  bindings : ∀ u, heap.Reaches t u → outcome.2.bindings u = heap.bindings u
  apart : outcome.2.Apart s t
  result : ∀ v, outcome.1 = .ok v → ∀ c, v.Captures c →
    ∀ u, outcome.2.Reaches c u → ¬ outcome.2.Reaches t u
  sound : outcome.2.Sound

/-- Up to scopes and procedures that were made since, the two heaps look the same from `s` and the
answers are the same. -/
def Heap.SameSince (heap : Heap) (s : ScopeId) (left right : Heap) (answers others : List Answer) :
    Prop :=
  ∃ p : Pairing, p.Fits left right ∧ p.scopes s s ∧
    (∀ a b, p.scopes a b → a = b ∨ heap.size ≤ a ∧ heap.size ≤ b) ∧
    (∀ i j, p.identities i j → i = j ∨ heap.nextIdentity ≤ i ∧ heap.nextIdentity ≤ j) ∧
    List.Forall₂ (Ends p.Values) answers others

variable {m : Mirror} {heap : Heap} {s t : ScopeId} {request : Request} {requests : List Request}

theorem Request.run_of_error {e : ReadError} (h : Value.read request.program = .error e) :
    request.run heap = (.error (.unreadable e), heap) := by
  rw [run, Evaluator.run, h]
  rfl

theorem Request.run_of_ok {e : Value} (h : Value.read request.program = .ok e) :
    request.run heap =
      (((Evaluator.eval request.fuel e request.scope).run.run heap).1.mapError .stopped,
        ((Evaluator.eval request.fuel e request.scope).run.run heap).2) := by
  rw [run, Evaluator.run, h]
  rfl

/-- A program contains no procedures, so it runs alike on the two sides of a mirror. -/
theorem Request.run_mirrors (paired : m.scopes request.scope request.scope) :
    ∃ after : Mirror, m.Step after ∧ (request.run m.left).2 = after.left ∧
      (request.run m.right).2 = after.right ∧
      Ends after.Values (request.run m.left).1 (request.run m.right).1 := by
  cases read : Value.read request.program with
  | error e =>
    rw [run_of_error read, run_of_error read]
    exact ⟨m, .refl m, rfl, rfl, .error (RunError.unreadable e)⟩
  | ok e =>
    have none := Value.not_occurs_of_read read
    have alike : m.Values e e :=
      Value.alike_self fun l isLambda inside => (none l isLambda inside).elim
    obtain ⟨after, _, _, step, left, right, ends⟩ :=
      (Evaluator.mirroredTo request.fuel).eval m _ _ e e paired alike
    rw [run_of_ok read, run_of_ok read, left, right]
    exact ⟨after, step, rfl, rfl, ends.mapError _⟩

theorem Mirror.Step.sound {after : Mirror} (step : m.Step after) (sound : m.left.Sound) :
    after.left.Sound := by
  intro u name v bound parameters body c i occurs
  by_cases paired : ∃ d, after.scopes u d
  case pos =>
    obtain ⟨d, paired⟩ := paired
    have alike := after.fits.bound u d paired name
    rw [bound] at alike
    generalize (after.right.bindings d)[name]? = found at alike
    cases alike with
    | some alike =>
      obtain ⟨l, -, procedures⟩ := alike.occurs (.lambda ..) occurs
      cases l <;> try exact procedures.elim
      exact ⟨(after.fits.scopes_lt _ _ procedures.1).1,
        (after.fits.identities_lt _ _ procedures.2).1⟩
  case neg =>
    have old : u < m.left.size :=
      (step.covers u (Heap.lt_of_bound bound)).resolve_right paired
    have alone (b : ScopeId) (before : m.scopes u b) : False :=
      paired ⟨b, step.sub.scopes u b before⟩
    rw [step.frame u old alone] at bound
    have before := sound u name v bound parameters body c i occurs
    exact ⟨Nat.lt_of_lt_of_le before.1 step.size_le.1,
      Nat.lt_of_lt_of_le before.2 step.nextIdentity_le.1⟩

theorem Request.leavesAlone (request : Request) (sound : heap.Sound)
    (inside : request.scope < heap.size) (inside' : t < heap.size)
    (apart : heap.Apart request.scope t) :
    heap.LeavesAlone request.scope t (request.run heap) := by
  have self : (heap.reflection request.scope sound inside).scopes request.scope request.scope :=
    ⟨rfl, .self⟩
  obtain ⟨after, step, left, -, ends⟩ := run_mirrors self
  change (request.run heap).2 = after.left at left
  have unpaired (u : ScopeId) (reached : heap.Reaches t u) (b : ScopeId) :
      ¬ (heap.reflection request.scope sound inside).scopes u b :=
    fun paired => apart u paired.2 reached
  have kept (u : ScopeId) (reached : heap.Reaches t u) :
      after.left.bindings u = heap.bindings u ∧ after.left.outer? u = heap.outer? u :=
    have old := sound.lt_of_reaches inside' reached
    ⟨step.frame u old (unpaired u reached), step.outer u old⟩
  have beyond (u c d : ScopeId) (paired : after.scopes c d) (fromC : after.left.Reaches c u) :
      ¬ after.left.Reaches t u := by
    intro fromT
    have reached := (Heap.reaches_iff kept).mp fromT
    obtain ⟨b, paired'⟩ := after.fits.paired_of_reaches paired fromC
    exact step.unpaired (sound.lt_of_reaches inside' reached) (unpaired u reached) b paired'
  constructor <;> rw [left]
  · exact fun u => Heap.reaches_iff kept
  · exact fun u reached => (kept u reached).1
  · exact fun u fromS => beyond u _ _ (step.sub.scopes _ _ self) fromS
  · intro v given c captures u fromC
    change Ends _ (request.run heap).1 _ at ends
    rw [given] at ends
    generalize (request.run (heap.reflection request.scope sound inside).right).1 = other at ends
    cases ends with
    | ok alike =>
      obtain ⟨d, paired⟩ := Pairing.paired_of_captures alike captures
      exact beyond u c d paired fromC
  · exact step.sound sound

/-- No scope of the heap on the left is paired by both mirrors. -/
structure Mirror.Beside (m n : Mirror) (s t : ScopeId) : Prop where
  left : n.left = m.left
  paired : m.scopes s s
  paired' : n.scopes t t
  disjoint : ∀ a b c, m.scopes a b → ¬ n.scopes a c

theorem Mirror.Beside.symm {n : Mirror} (h : m.Beside n s t) : n.Beside m t s where
  left := h.left.symm
  paired := h.paired'
  paired' := h.paired
  disjoint a b c other own := h.disjoint a c b own other

def Mirror.moved (n : Mirror) (left : Heap) (size : n.left.size ≤ left.size)
    (identities : n.left.nextIdentity ≤ left.nextIdentity)
    (kept : ∀ a b, n.scopes a b →
      left.bindings a = n.left.bindings a ∧ left.outer? a = n.left.outer? a) : Mirror where
  toPairing := n.toPairing
  left := left
  right := n.right
  fits :=
    { scopes_lt a b paired :=
        ⟨Nat.lt_of_lt_of_le (n.fits.scopes_lt a b paired).1 size, (n.fits.scopes_lt a b paired).2⟩
      identities_lt i j paired :=
        ⟨Nat.lt_of_lt_of_le (n.fits.identities_lt i j paired).1 identities,
          (n.fits.identities_lt i j paired).2⟩
      scopes_unique := n.fits.scopes_unique
      identities_unique := n.fits.identities_unique
      outer a b paired := by
        rw [(kept a b paired).2]
        exact n.fits.outer a b paired
      bound a b paired name := by
        rw [(kept a b paired).1]
        exact n.fits.bound a b paired name }

theorem Mirror.Beside.run {n : Mirror} (h : m.Beside n s t) (own : request.scope = s) :
    ∃ m' n' : Mirror, m'.Beside n' s t ∧ m.Grows m' ∧ n.Grows n' ∧ n'.right = n.right ∧
      (request.run m.left).2 = m'.left ∧ (request.run m.right).2 = m'.right ∧
      Ends m'.Values (request.run m.left).1 (request.run m.right).1 := by
  subst own
  obtain ⟨after, step, left, right, ends⟩ := Request.run_mirrors h.paired
  have inside (a b : ScopeId) (paired : n.scopes a b) : a < m.left.size :=
    h.left ▸ (n.fits.scopes_lt a b paired).1
  have alone (a b : ScopeId) (paired : n.scopes a b) (c : ScopeId) : ¬ m.scopes a c :=
    fun own => h.disjoint a c b own paired
  have kept (a b : ScopeId) (paired : n.scopes a b) :
      after.left.bindings a = n.left.bindings a ∧ after.left.outer? a = n.left.outer? a := by
    rw [h.left]
    exact ⟨step.frame a (inside a b paired) (alone a b paired), step.outer a (inside a b paired)⟩
  have size : n.left.size ≤ after.left.size := h.left ▸ step.size_le.1
  have identities : n.left.nextIdentity ≤ after.left.nextIdentity :=
    h.left ▸ step.nextIdentity_le.1
  refine ⟨after, n.moved after.left size identities kept, ?_, step.toGrows, ?_, rfl, left, right,
    ends⟩
  · refine ⟨rfl, step.sub.scopes _ _ h.paired, h.paired', fun a b c own other => ?_⟩
    exact step.unpaired (inside a c other) (alone a c other) b own
  · exact ⟨⟨fun _ _ => id, fun _ _ => id⟩, fun _ _ => .inl, fun _ _ => .inl,
      ⟨size, Nat.le_refl _⟩, ⟨identities, Nat.le_refl _⟩⟩

/-- The mirror is followed through the requests: on the right only those in the scope are run. -/
structure Mirror.Follows (m : Mirror) (s : ScopeId) (requests : List Request) (after : Mirror) :
    Prop where
  grows : m.Grows after
  left : (session requests m.left).2 = after.left
  right : (session (requests.filter (·.scope = s)) m.right).2 = after.right
  answers : List.Forall₂ (Ends after.Values) (answersIn s (session requests m.left).1)
    ((session (requests.filter (·.scope = s)) m.right).1.map Prod.snd)

namespace Mirror.Follows

variable {middle after : Mirror}

theorem nil : m.Follows s [] m :=
  ⟨.refl m, rfl, rfl, .nil⟩

theorem own (isOwn : request.scope = s) (grows : m.Grows middle)
    (left : (request.run m.left).2 = middle.left) (right : (request.run m.right).2 = middle.right)
    (ends : Ends middle.Values (request.run m.left).1 (request.run m.right).1)
    (rest : middle.Follows s requests after) : m.Follows s (request :: requests) after := by
  constructor
  · exact grows.trans rest.grows
  · rw [session, left]
    exact rest.left
  · rw [List.filter_cons_of_pos (by simpa using isOwn), session, right]
    exact rest.right
  · rw [List.filter_cons_of_pos (by simpa using isOwn), session, session, left, right]
    simp only [answersIn, List.filter_cons, isOwn, decide_true, if_true, List.map_cons]
    exact .cons (ends.imp fun _ _ => rest.grows.sub.values) rest.answers

theorem other (isOther : request.scope ≠ s) (grows : m.Grows middle)
    (left : (request.run m.left).2 = middle.left) (right : middle.right = m.right)
    (rest : middle.Follows s requests after) : m.Follows s (request :: requests) after := by
  have skipped : (request :: requests).filter (·.scope = s) = requests.filter (·.scope = s) :=
    List.filter_cons_of_neg (by simpa using isOther)
  constructor
  · exact grows.trans rest.grows
  · rw [session, left]
    exact rest.left
  · rw [skipped, ← right]
    exact rest.right
  · rw [skipped, ← right, session, left]
    simp only [answersIn, List.filter_cons, isOther, decide_false]
    exact rest.answers

end Mirror.Follows

/-- By induction on the requests: each moves on the mirror of its scope, and the other follows. -/
theorem Mirror.Beside.follows {n : Mirror} (h : m.Beside n s t)
    (only : ∀ request ∈ requests, request.scope = s ∨ request.scope = t) :
    ∃ m' n' : Mirror, m'.Beside n' s t ∧ m.Follows s requests m' ∧ n.Follows t requests n' := by
  have different : s ≠ t := by
    rintro rfl
    exact h.disjoint s s s h.paired h.paired'
  induction requests generalizing m n with
  | nil => exact ⟨m, n, h, .nil, .nil⟩
  | cons request requests ih =>
    have later : ∀ request ∈ requests, request.scope = s ∨ request.scope = t :=
      fun request member => only request (List.mem_cons_of_mem _ member)
    obtain own | own := only request List.mem_cons_self
    · obtain ⟨m', n', beside, grows, grows', same, left, right, ends⟩ := h.run own
      obtain ⟨after, after', beside', follows, follows'⟩ := ih beside later
      have left' : (request.run n.left).2 = n'.left := by rw [h.left, beside.left, left]
      have other : request.scope ≠ t := fun equal => different (own.symm.trans equal)
      exact ⟨after, after', beside', .own own grows left right ends follows,
        .other other grows' left' same follows'⟩
    · obtain ⟨n', m', beside, grows, grows', same, left, right, ends⟩ := h.symm.run own
      obtain ⟨after, after', beside', follows, follows'⟩ := ih beside.symm later
      have left' : (request.run m.left).2 = m'.left := by rw [h.symm.left, beside.left, left]
      have other : request.scope ≠ s := fun equal => different (equal.symm.trans own)
      exact ⟨after, after', beside', .other other grows' left' same follows,
        .own own grows left right ends follows'⟩

theorem Mirror.Follows.sameSince {after : Mirror} {sound : heap.Sound} {inside : s < heap.size}
    (h : (heap.reflection s sound inside).Follows s requests after) :
    heap.SameSince s (session requests heap).2
      (session (requests.filter (·.scope = s)) heap).2 (answersIn s (session requests heap).1)
      ((session (requests.filter (·.scope = s)) heap).1.map Prod.snd) := by
  refine ⟨after.toPairing, ?_, h.grows.sub.scopes s s ⟨rfl, .self⟩, ?_, ?_, h.answers⟩
  · have left : (session requests heap).2 = after.left := h.left
    have right : (session (requests.filter (·.scope = s)) heap).2 = after.right := h.right
    rw [left, right]
    exact after.fits
  · exact fun a b paired => (h.grows.new_scopes a b paired).imp_left And.left
  · exact fun i j paired => (h.grows.new_identities i j paired).imp_left And.left

/-- Let two scopes of a sound heap be apart. A program run in the one, whether it gives a value or
stops, leaves what is reached from the other as it is and apart, and its value captures nothing of
it. So however programs for the two scopes are interleaved, the answers in each are those that its
own programs give alone, up to what was made since. -/
theorem evaluators_isolated (heap : Heap) (s t : ScopeId) (sound : heap.Sound)
    (inside : s < heap.size) (inside' : t < heap.size) (apart : heap.Apart s t) :
    (∀ fuel program, heap.LeavesAlone s t (Request.run ⟨s, fuel, program⟩ heap)) ∧
      ∀ requests : List Request,
        (∀ request ∈ requests, request.scope = s ∨ request.scope = t) →
        ∀ u, u = s ∨ u = t →
          heap.SameSince u (session requests heap).2
            (session (requests.filter (·.scope = u)) heap).2
            (answersIn u (session requests heap).1)
            ((session (requests.filter (·.scope = u)) heap).1.map Prod.snd) := by
  constructor
  · exact fun fuel program => Request.leavesAlone ⟨s, fuel, program⟩ sound inside inside' apart
  · intro requests only u isOne
    have beside : (heap.reflection s sound inside).Beside (heap.reflection t sound inside') s t :=
      ⟨rfl, ⟨rfl, .self⟩, ⟨rfl, .self⟩, fun a _ _ own other => apart a own.2 other.2⟩
    obtain ⟨_, _, -, follows, follows'⟩ := beside.follows only
    obtain rfl | rfl := isOne
    · exact follows.sameSince
    · exact follows'.sameSince

def twoRoots : Heap :=
  Heap.empty.pushStandard.2.pushStandard.2

def byTurns : List Request :=
  [⟨0, 9, "(define f (lambda (x) (set! y x)))"⟩, ⟨1, 9, "(define y (list car cdr))"⟩,
    ⟨0, 9, "(f 2)"⟩, ⟨1, 9, "(map (lambda (f) (f y)) y)"⟩, ⟨0, 9, "(list f y)"⟩]

theorem two_roots_isolated :
    (0 < twoRoots.size ∧ 1 < twoRoots.size ∧ twoRoots.Apart 0 1) ∧
      (∀ fuel program, twoRoots.LeavesAlone 0 1 (Request.run ⟨0, fuel, program⟩ twoRoots)) ∧
      twoRoots.SameSince 1 (session byTurns twoRoots).2
        (session (byTurns.filter (·.scope = 1)) twoRoots).2
        (answersIn 1 (session byTurns twoRoots).1)
        ((session (byTurns.filter (·.scope = 1)) twoRoots).1.map Prod.snd) := by
  have first : Heap.empty.pushStandard.2.Sound := Heap.sound_empty.pushStandard
  have apart : twoRoots.Apart 0 1 := Heap.apart_pushStandard first (by decide)
  have isolated := evaluators_isolated twoRoots 0 1 first.pushStandard (by decide) (by decide) apart
  exact ⟨⟨by decide, by decide, apart⟩, isolated.1, isolated.2 byTurns (by decide) 1 (.inr rfl)⟩

end SemanticParsing
