import ThunkLisp.Proofs.AccordRules
import ThunkLisp.Proofs.SessionGrowth

/-!
Sessions in accord: from the start on, through the evaluation of source texts one after the other.
-/

namespace ThunkLisp

open Machine (effect)
open Value (Every)

namespace Session

/-- What comes of source texts that are evaluated one after the other: for each the outcome and the
recording after it. A text that fails ends there, and the next one is evaluated all the same. -/
def replies (limit : Nat) (session : Session) (r : Recording) :
    List String → List (Except Failure Value × Recording)
  | [] => []
  | text :: rest =>
      let reply := (session.evaluateTextWithin limit text : Recorded Value).on r
      reply :: session.replies limit reply.2 rest

def Roomy (replies : List (Except Failure Value × Recording)) : Prop :=
  ∀ reply ∈ replies, reply.1 ≠ .error .recursion

theorem after_cons (limit : Nat) (session : Session) (r : Recording) (text : String)
    (rest : List String) :
    session.after limit r (text :: rest) =
      session.after limit ((session.evaluateTextWithin limit text : Recorded Value).on r).2 rest :=
        rfl

end Session

namespace Setup

def opening (setup : Setup) : Run FrameId := do
  makeGlobals setup.supplies (← Run.ofExcept setup.checked)

def session (setup : Setup) (strategy : Strategy) (globals : FrameId) : Session :=
  ⟨⟨FormTable.full, strategy, setup.added⟩, globals⟩

theorem on_start (setup : Setup) {strategy : Strategy} (chosen : setup.strategy = .ok strategy) :
    (Session.start setup : Recorded Session).on {} =
      match (effect setup.opening : Recorded FrameId).on {} with
      | (.error failure, r) => (.error failure, r)
      | (.ok globals, opened) =>
          match ((setup.session strategy globals).evaluateTextWithin setup.limit setup.prelude :
              Recorded Value).on opened with
          | (.error failure, r) => (.error failure, r)
          | (.ok _, r) => (.ok (setup.session strategy globals), r) := by
  simp only [Session.start, opening, Recorded.effect_bind, Recorded.on_bind, Recorded.on_effect,
    Run.on_ofExcept, chosen]
  cases setup.checked with
  | error failure => rfl
  | ok checked =>
      simp only
      cases makeGlobals setup.supplies checked |>.on {} with
      | mk outcome store =>
          cases outcome with
          | error failure => rfl
          | ok globals =>
              simp only [session]
              cases (Session.evaluateTextWithin setup.limit
                  ⟨⟨FormTable.full, strategy, setup.added⟩, globals⟩ setup.prelude :
                Recorded Value).on ⟨store, []⟩ with
              | mk outcome r => cases outcome <;> rfl

def replies (setup : Setup) (texts : List String) :
    (Except Failure FrameId × Recording) × List (Except Failure Value × Recording) :=
  match (Session.start setup : Recorded Session).on {} with
  | (.error failure, r) => ((.error failure, r), [])
  | (.ok session, r) => ((.ok session.globals, r), session.replies setup.limit r texts)

def under (setup : Setup) (strategy : Strategy) : Setup :=
  { setup with strategy? := some strategy.text }

theorem strategy_of_ran {setup : Setup} {texts : List String} {session : Session} {r : Recording}
    (ran : setup.ran? texts = some (session, r)) : ∃ strategy, setup.strategy = .ok strategy := by
  obtain ⟨opened, started, -⟩ := setup.ran?_eq_some texts session r ran
  cases chosen : setup.strategy with
  | ok strategy => exact ⟨strategy, rfl⟩
  | error failure => simp [Session.start, Recorded.on_bind, Recorded.on_effect, Run.on_ofExcept,
      chosen] at started

theorem strategy_under (setup : Setup) (strategy : Strategy) :
    (setup.under strategy).strategy = .ok strategy := by
  cases strategy <;> cbv

end Setup

namespace Accord

def Reads (a : Accord) (text : String) : Prop := ∀ forms, readAll text = .ok forms →
    ∀ form ∈ forms, a.code form

structure Opens (a : Accord) (setup : Setup) : Prop where
  added : a.added = setup.added
  nothing : a.sound {}
  globals (checked : Bool) : a.sound ⟨emptyGlobals checked, []⟩
  value (name v : Value) : (name, .value v) ∈ setup.supplies → a.value v
  function (name : Value) (action : String) : (name, .function action) ∈ setup.supplies →
    ∀ text identity, a.leaf (.primitive ⟨text, .added action, identity⟩)
  prelude : a.Reads setup.prelude

variable {a : Accord} {r : Recording}

theorem evaluateForms_leads (lawful : a.Lawful) (limit : Nat) (globals : FrameId)
    (forms : List Value) (last : Value) (sound : a.sound r) (value : a.value last)
    (each : ∀ form ∈ forms, a.code form) :
    a.Leads (Session.evaluateForms limit ⟨a.evaluator, globals⟩ last forms)
      (Session.evaluateForms limit ⟨a.evaluator', globals⟩ last forms) r fun v _ => a.value v := by
  induction forms generalizing r last with
  | nil => exact leads_pure sound value
  | cons form rest ih =>
      have runs := run_leads lawful (Nat.le_refl limit)
      have first := runs r (.evaluate form globals) sound (each form List.mem_cons_self)
      exact first.bind fun v s sound' _ holds => ih v sound' holds.1.1 fun form member =>
        each form (.tail _ member)

theorem evaluateText_leads (lawful : a.Lawful) (limit : Nat) (globals : FrameId) {text : String}
    (sound : a.sound r) (reads : a.Reads text) :
    a.Leads (Session.evaluateTextWithin limit ⟨a.evaluator, globals⟩ text)
      (Session.evaluateTextWithin limit ⟨a.evaluator', globals⟩ text) r fun v _ => a.value v := by
  have reading : a.LeadsEffect (Run.ofExcept (readAll text)) r fun forms _ =>
      ∀ form ∈ forms, a.code form :=
    leads_ofExcept sound reads
  exact Leads.bind reading fun forms s sound' _ each =>
    evaluateForms_leads lawful limit globals forms .nil sound' lawful.value_nil each

theorem replies_leads (lawful : a.Lawful) (limit : Nat) (globals : FrameId) (texts : List String)
    (sound : a.sound r) (reads : ∀ text ∈ texts, a.Reads text) :
    (Session.Roomy (Session.replies limit ⟨a.evaluator', globals⟩ r texts) →
      Session.replies limit ⟨a.evaluator, globals⟩ r texts =
        Session.replies limit ⟨a.evaluator', globals⟩ r texts) ∧
      ∀ reply ∈ Session.replies limit ⟨a.evaluator', globals⟩ r texts, a.sound reply.2 := by
  induction texts generalizing r with
  | nil => exact ⟨fun _ => rfl, by simp [Session.replies]⟩
  | cons text rest ih =>
      obtain ⟨outcome, after, ran, ran', _, sound', _⟩ :=
        evaluateText_leads lawful limit globals sound (reads text List.mem_cons_self)
      obtain ⟨same, each⟩ := ih sound' fun text member => reads text (.tail _ member)
      simp only [Session.replies, ran']
      refine ⟨fun roomy => ?_, List.forall_mem_cons.mpr ⟨sound', each⟩⟩
      obtain ⟨within, behind⟩ := List.forall_mem_cons.mp roomy
      simp only [ran within, same behind]

theorem after_sound (lawful : a.Lawful) (limit : Nat) (globals : FrameId) (texts : List String)
    (sound : a.sound r) (reads : ∀ text ∈ texts, a.Reads text) :
    a.sound (Session.after limit ⟨a.evaluator', globals⟩ r texts) := by
  induction texts generalizing r with
  | nil => exact sound
  | cons text rest ih =>
      obtain ⟨outcome, after, _, ran, _, sound', _⟩ :=
        evaluateText_leads lawful limit globals sound (reads text List.mem_cons_self)
      rw [Session.after_cons, ran]
      exact ih sound' fun text member => reads text (.tail _ member)

/-! New sessions. -/

theorem suppliedBindings_leads (lawful : a.Lawful) (supplies : List (Value × Supply))
    (sound : a.sound r) (values : ∀ name v, (name, .value v) ∈ supplies → a.value v)
    (functions : ∀ name action, (name, .function action) ∈ supplies →
      ∀ text identity, a.leaf (.primitive ⟨text, .added action, identity⟩)) :
    a.LeadsEffect (suppliedBindings supplies) r fun bindings _ => ∀ entry ∈ bindings,
      a.value entry.2 := by
  induction supplies generalizing r with
  | nil => exact leads_pure sound (by simp)
  | cons supply rest ih =>
      have behind {s : Recording} (sound : a.sound s) := ih sound
        (fun name v member => values name v (.tail _ member))
        (fun name action member => functions name action (.tail _ member))
      rcases supply with ⟨name, v | action⟩
      · refine LeadsEffect.bind (behind sound) fun bindings s sound' _ others => ?_
        exact leads_pure sound' (List.forall_mem_cons.mpr
          ⟨values name v List.mem_cons_self, others⟩)
      · have text : a.LeadsEffect (Run.text fun store => store.displayed? name) r fun _ _ => True :=
          leads_effect (Run.on_text _ r.store) sound fun _ _ => trivial
        refine LeadsEffect.bind text fun found s sound' _ _ => ?_
        have making : a.LeadsEffect (newPrimitive found action) s fun v _ => a.value v := by
          apply leads_effect (Realm.on_newPrimitive found action s.store) (lawful.numbers s sound')
          rintro v ⟨⟩
          exact (Value.every_of_flat rfl).mpr (functions name action List.mem_cons_self _ _)
        refine LeadsEffect.bind making fun primitive t sound'' _ value => ?_
        refine LeadsEffect.bind (behind sound'') fun bindings u sound₃ _ others => ?_
        exact leads_pure sound₃ (List.forall_mem_cons.mpr ⟨value, others⟩)

theorem defineAll_leads (lawful : a.Lawful) (frame : FrameId) (bindings : Bindings)
    (sound : a.sound r) (values : ∀ entry ∈ bindings, a.value entry.2) :
    a.LeadsEffect (Scope.defineAll frame bindings) r fun _ _ => True := by
  induction bindings generalizing r with
  | nil => exact leads_pure sound trivial
  | cons entry rest ih =>
      have defining : a.LeadsEffect (Scope.define frame entry.1 entry.2) r fun _ _ => True := by
        rcases entry with ⟨name, v⟩
        cases symbol : name.isSymbol with
        | true =>
            cases name with
            | sym name =>
                exact leads_effect (Scope.on_define frame name v r.store)
                  (lawful.binds r frame name v sound (values _ List.mem_cons_self)) fun _ _ =>
                    trivial
            | _ => cases symbol
        | false =>
            have ran : (Scope.define frame name v).on r.store =
                (.error (.malformed (.notASymbol name)), r.store) := by
              simp only [Scope.define, symbol, Bool.false_eq_true, ↓reduceIte, Run.on_throw]
            exact leads_effect ran sound fun _ _ => trivial
      exact LeadsEffect.bind defining fun _ s sound' _ _ => ih sound' fun found member =>
        values found (.tail _ member)

theorem opening_sound (lawful : a.Lawful) {setup : Setup} (opens : a.Opens setup) :
    a.sound ((effect setup.opening : Recorded FrameId).on {}).2 := by
  simp only [Setup.opening, Recorded.effect_bind, Recorded.on_bind, Recorded.on_effect,
    Run.on_ofExcept]
  cases setup.checked with
  | error failure => exact opens.nothing
  | ok checked =>
      have supplying := suppliedBindings_leads lawful setup.supplies (opens.globals checked)
        opens.value opens.function
      have filling : a.LeadsEffect (fillGlobals setup.supplies) ⟨emptyGlobals checked, []⟩
          fun _ _ => True :=
        LeadsEffect.bind supplying fun bindings s sound _ values =>
          LeadsEffect.bind (defineAll_leads lawful 0 bindings sound values) fun _ t sound' _ _ =>
            leads_pure sound' trivial
      obtain ⟨outcome, after, _, ran, _, sound, _⟩ := filling
      rw [Recorded.on_effect] at ran
      obtain ⟨_, stored⟩ := Prod.mk.inj ran
      rw [← stored, ← makeGlobals_on_nothing] at sound
      exact sound

theorem sound_of_ran (lawful : a.Lawful) {setup : Setup} (opens : a.Opens setup)
    {texts : List String} {session : Session} {r : Recording}
    (chosen : setup.strategy = .ok a.other) (reads : ∀ text ∈ texts, a.Reads text)
    (ran : setup.ran? texts = some (session, r)) :
    a.sound r ∧ session.evaluator = a.evaluator' := by
  obtain ⟨opened, started, rfl⟩ := setup.ran?_eq_some texts session r ran
  have opening := opening_sound lawful opens
  have same (globals : FrameId) : setup.session a.other globals = ⟨a.evaluator', globals⟩ := by
    rw [Setup.session, evaluator', opens.added]
  rw [setup.on_start chosen] at started
  split at started
  · cases started
  · next globals filled made =>
      rw [made] at opening
      rw [same] at started
      obtain ⟨outcome, after, _, evaluated, _, sound, _⟩ :=
        evaluateText_leads lawful setup.limit globals opening opens.prelude
      rw [evaluated] at started
      cases outcome with
      | error failure => cases started
      | ok v =>
          cases started
          exact ⟨after_sound lawful setup.limit globals texts sound reads, rfl⟩

/-- Every recording of a session under the second strategy is sound, and under the first it replies
alike unless the second comes to the end of its room. -/
theorem setup_replies_leads (lawful : a.Lawful) {setup : Setup} (opens : a.Opens setup)
    (texts : List String) (reads : ∀ text ∈ texts, a.Reads text) :
    let replied := (setup.under a.other).replies texts
    (replied.1.1 ≠ .error .recursion → Session.Roomy replied.2 →
      (setup.under a.strategy).replies texts = replied) ∧
      a.sound replied.1.2 ∧ ∀ reply ∈ replied.2, a.sound reply.2 := by
  have opening := opening_sound lawful opens
  have same (globals : FrameId) : (setup.under a.strategy).session a.strategy globals =
      ⟨a.evaluator, globals⟩ := by
    rw [Setup.session, evaluator, opens.added]
    rfl
  have same' (globals : FrameId) : (setup.under a.other).session a.other globals =
      ⟨a.evaluator', globals⟩ := by
    rw [Setup.session, evaluator', opens.added]
    rfl
  have opened (strategy : Strategy) : (setup.under strategy).opening = setup.opening := rfl
  have prelude (strategy : Strategy) : (setup.under strategy).prelude = setup.prelude := rfl
  have limit (strategy : Strategy) : (setup.under strategy).limit = setup.limit := rfl
  simp only [Setup.replies, Setup.on_start _ (setup.strategy_under _), opened, prelude, limit, same,
    same']
  -- both setups open the same globals and part with the prelude at the earliest
  cases made : (effect setup.opening : Recorded FrameId).on {} with
  | mk outcome filled =>
      rw [made] at opening
      cases outcome with
      | error failure => exact ⟨fun _ _ => rfl, opening, by simp⟩
      | ok globals =>
          obtain ⟨outcome, after, ran, ran', _, sound, _⟩ :=
            evaluateText_leads lawful setup.limit globals opening opens.prelude
          simp only [ran']
          cases outcome with
          | error failure =>
              refine ⟨fun within _ => ?_, sound, by simp⟩
              rw [ran fun same => within (congrArg _ (Except.error.inj same))]
          | ok v =>
              obtain ⟨replied, each⟩ := replies_leads lawful setup.limit globals texts sound reads
              refine ⟨fun _ roomy => ?_, sound, each⟩
              simp only [ran (by rintro ⟨⟩), replied roomy]

end Accord

end ThunkLisp
