import CheshireCat.Base.Calendar
import CheshireCat.Base.Dict
import CheshireCat.Base.Runs

namespace CheshireCat.LookingGlass.WhiteRabbit
open Base Base.Calendar

/-- What is given as a job: its `__name__`, and whether it can be called. -/
structure Function where
  name : List Char
  callable : Bool
deriving DecidableEq

structure Delay where
  days : Int := 0
  hours : Int := 0
  minutes : Int := 0
  seconds : Int := 0
  milliseconds : Int := 0
  microseconds : Int := 0
deriving DecidableEq

inductive Error where
  | overflowError
  | typeError
  | valueError
  | conflictingIdError
deriving DecidableEq

inductive Trigger where
  | date (runDate : DateTime)
  | interval (days hours minutes seconds : Int)
  | cron
deriving DecidableEq

/-- What a job is run with: `κ` are the keyword arguments of a function with, where the trigger has
them, the start and end dates and the fields of a cron expression. -/
inductive Arguments (κ : Type) where
  | given (arguments : κ)
  | chatMessage (content user : String)
deriving DecidableEq

structure PendingJob (κ : Type) where
  name : List Char
  trigger : Trigger
  arguments : Arguments κ
deriving DecidableEq

variable {κ : Type}

/-! ### Times -/

/-- `timedelta`, in microseconds. -/
def Delay.total (d : Delay) : Int :=
  ((((d.days * 24 + d.hours) * 60 + d.minutes) * 60 + d.seconds) * 1000 + d.milliseconds) * 1000 +
    d.microseconds

/-- The years 1 to 9999 have this many days. -/
def maxOrdinal : Nat := 3652059

def endOfTime : Int := maxOrdinal * 86400 * 1000000

/-- `datetime.today() + timedelta(...)`. -/
def schedule (now : DateTime) (d : Delay) : Except Error DateTime :=
  let time := now.microseconds + d.total
  if 0 ≤ time ∧ time < endOfTime then .ok ⟨time.toNat⟩ else .error .overflowError

/-! ### Ids -/

def intervalId (name : List Char) (days hours minutes seconds : Int) : List Char :=
  ((((name ++ "-interval".toList) ++ '-' :: intText days) ++ '-' :: intText hours) ++
    '-' :: intText minutes) ++ '-' :: intText seconds

def cronId (name : List Char) : List Char := name ++ "-cron".toList

def PendingJob.id (job : PendingJob κ) : List Char :=
  match job.trigger with
  | .date runDate => runDate.behind job.name
  | .interval days hours minutes seconds => intervalId job.name days hours minutes seconds
  | .cron => cronId job.name

/-! ### The scheduler -/

abbrev Pending (κ : Type) := Dict (List Char) (PendingJob κ)

section Scheduler

-- `accepts` says whether APScheduler can make the trigger and call the function with the arguments.
variable (accepts : List Char → Trigger → κ → Bool)

def PendingJob.accepted (job : PendingJob κ) : Bool :=
  match job.arguments with
  | .given arguments => accepts job.name job.trigger arguments
  | .chatMessage _ _ => true

def addJob (pending : Pending κ) (job : PendingJob κ) : Except Error (List Char × Pending κ) :=
  if job.accepted accepts = false then .error .valueError
  else if job.id ∈ pending.keys then .error .conflictingIdError
  else .ok (job.id, pending.set job.id job)

def scheduleJob (pending : Pending κ) (now : DateTime) (job : Function) (delay : Delay)
    (arguments : κ) : Except Error (List Char × Pending κ) := do
  let runDate ← schedule now delay
  if job.callable then addJob accepts pending ⟨job.name, .date runDate, .given arguments⟩
  else throw .typeError

def scheduleIntervalJob (pending : Pending κ) (job : Function) (days hours minutes seconds : Int)
    (arguments : κ) : Except Error (List Char × Pending κ) :=
  if job.callable then
    addJob accepts pending ⟨job.name, .interval days hours minutes seconds, .given arguments⟩
  else throw .typeError

def scheduleCronJob (pending : Pending κ) (job : Function) (arguments : κ) :
    Except Error (List Char × Pending κ) :=
  if job.callable then addJob accepts pending ⟨job.name, .cron, .given arguments⟩
  else throw .typeError

/-- The job is a method of the cat, `send_ws_message`. -/
def scheduleChatMessage (pending : Pending κ) (now : DateTime) (content user : String)
    (delay : Delay) : Except Error (List Char × Pending κ) := do
  let runDate ← schedule now delay
  addJob accepts pending ⟨"send_ws_message".toList, .date runDate, .chatMessage content user⟩

inductive Call (κ : Type) where
  | scheduleJob (job : Function) (delay : Delay) (arguments : κ)
  | scheduleIntervalJob (job : Function) (days hours minutes seconds : Int) (arguments : κ)
  | scheduleCronJob (job : Function) (arguments : κ)
  | scheduleChatMessage (content user : String) (delay : Delay)
deriving DecidableEq

def Call.perform (pending : Pending κ) (now : DateTime) :
    Call κ → Except Error (List Char × Pending κ)
  | .scheduleJob job delay arguments => WhiteRabbit.scheduleJob accepts pending now job delay arguments
  | .scheduleIntervalJob job days hours minutes seconds arguments =>
    WhiteRabbit.scheduleIntervalJob accepts pending job days hours minutes seconds arguments
  | .scheduleCronJob job arguments => WhiteRabbit.scheduleCronJob accepts pending job arguments
  | .scheduleChatMessage content user delay =>
    WhiteRabbit.scheduleChatMessage accepts pending now content user delay

/-- A call at some reading of the clock, or a job that has ended or is removed. -/
inductive Event (κ : Type) where
  | call (now : DateTime) (c : Call κ)
  | ended (id : List Char)
deriving DecidableEq

/-- A call that raises changes nothing. -/
def step (pending : Pending κ) : Event κ → Option (Pending κ)
  | .call now c =>
    match c.perform accepts pending now with
    | .ok result => some result.2
    | .error _ => some pending
  | .ended id => some (pending.erase id)

end Scheduler

/-! ### What a call schedules -/

def Call.name : Call κ → List Char
  | .scheduleJob job _ _ => job.name
  | .scheduleIntervalJob job _ _ _ _ _ => job.name
  | .scheduleCronJob job _ => job.name
  | .scheduleChatMessage _ _ _ => "send_ws_message".toList

def Call.callable : Call κ → Bool
  | .scheduleJob job _ _ => job.callable
  | .scheduleIntervalJob job _ _ _ _ _ => job.callable
  | .scheduleCronJob job _ => job.callable
  | .scheduleChatMessage _ _ _ => true

def Call.arguments : Call κ → Arguments κ
  | .scheduleJob _ _ arguments => .given arguments
  | .scheduleIntervalJob _ _ _ _ _ arguments => .given arguments
  | .scheduleCronJob _ arguments => .given arguments
  | .scheduleChatMessage content user _ => .chatMessage content user

def Call.trigger (now : DateTime) : Call κ → Except Error Trigger
  | .scheduleJob _ delay _ => (schedule now delay).map .date
  | .scheduleIntervalJob _ days hours minutes seconds _ => .ok (.interval days hours minutes seconds)
  | .scheduleCronJob _ _ => .ok .cron
  | .scheduleChatMessage _ _ delay => (schedule now delay).map .date

section Calls
variable (accepts : List Char → Trigger → κ → Bool) (pending : Pending κ) (now : DateTime)

theorem scheduleJob_eq (job : Function) (delay : Delay) (arguments : κ) :
    scheduleJob accepts pending now job delay arguments =
      ((schedule now delay).map .date).bind (fun trigger =>
        if job.callable then addJob accepts pending ⟨job.name, trigger, .given arguments⟩
        else .error .typeError) := by
  unfold scheduleJob
  cases schedule now delay with
  | error e => rfl
  | ok runDate => rfl

theorem scheduleChatMessage_eq (content user : String) (delay : Delay) :
    scheduleChatMessage accepts pending now content user delay =
      ((schedule now delay).map .date).bind (fun trigger =>
        addJob accepts pending ⟨"send_ws_message".toList, trigger, .chatMessage content user⟩) := by
  unfold scheduleChatMessage
  cases schedule now delay with
  | error e => rfl
  | ok runDate => rfl

/-- Every call adds its job, once it has a trigger and the job can be called. -/
theorem perform_eq (c : Call κ) :
    c.perform accepts pending now = (c.trigger now).bind (fun trigger =>
      if c.callable then addJob accepts pending ⟨c.name, trigger, c.arguments⟩ else .error .typeError) := by
  cases c with
  | scheduleJob job delay arguments => exact scheduleJob_eq accepts pending now job delay arguments
  | scheduleIntervalJob job days hours minutes seconds arguments => rfl
  | scheduleCronJob job arguments => rfl
  | scheduleChatMessage content user delay =>
    exact scheduleChatMessage_eq accepts pending now content user delay

end Calls

/-! ### Ids tell the slots apart -/

/-- What of a trigger gets into an id: of a date the second. -/
inductive Slot where
  | second (n : Nat)
  | interval (days hours minutes seconds : Int)
  | cron
deriving DecidableEq

def Trigger.slot : Trigger → Slot
  | .date runDate => .second runDate.second
  | .interval days hours minutes seconds => .interval days hours minutes seconds
  | .cron => .cron

/-- Behind its last mark, an integer has digits. -/
theorem int_tail (l : List Char) (n : Int) :
    ∃ l' a, l ++ '-' :: intText n = l' ++ '-' :: a ∧ a ≠ [] ∧ ∀ c ∈ a, c.isDigit = true := by
  cases n with
  | ofNat n => exact ⟨l, _, rfl, Nat.toDigits_ne_nil, fun _ => digits_are_digits⟩
  | negSucc n =>
    exact ⟨l ++ ['-'], Nat.toDigits 10 (n + 1), by simp [intText], Nat.toDigits_ne_nil, fun _ => digits_are_digits⟩

theorem int_end (l : List Char) (n : Int) : (l ++ '-' :: intText n).getLast? ≠ some '-' := by
  obtain ⟨l', a, h, ha, hdigits⟩ := int_tail l n
  rw [h, List.getLast?_append_of_ne_nil _ (by simp), List.getLast?_cons_of_ne_nil ha,
    List.getLast?_eq_some_getLast ha]
  intro hlast
  have := hdigits _ (Option.some.inj hlast ▸ List.getLast_mem ha)
  cases this

theorem interval_inj {name name' : List Char} {d h m s d' h' m' s' : Int}
    (heq : intervalId name d h m s = intervalId name' d' h' m' s') :
    name = name' ∧ d = d' ∧ h = h' ∧ m = m' ∧ s = s' := by
  have hname (l : List Char) : (l ++ "-interval".toList).getLast? ≠ some '-' := by simp
  obtain ⟨heq, hs⟩ := int_unique (int_end _ _) (int_end _ _) heq
  obtain ⟨heq, hm⟩ := int_unique (int_end _ _) (int_end _ _) heq
  obtain ⟨heq, hh⟩ := int_unique (int_end _ _) (int_end _ _) heq
  obtain ⟨heq, hd⟩ := int_unique (hname _) (hname _) heq
  exact ⟨List.append_cancel_right heq, hd, hh, hm, hs⟩

/-- The last character of an id that is no digit tells the kinds of jobs apart. -/
def Trigger.mark : Trigger → Char
  | .date _ => ':'
  | .interval _ _ _ _ => '-'
  | .cron => 'n'

theorem Trigger.mark_not_digit (trigger : Trigger) : trigger.mark.isDigit = false := by
  cases trigger <;> rfl

theorem id_tail (job : PendingJob κ) :
    ∃ l a, job.id = l ++ job.trigger.mark :: a ∧ ∀ c ∈ a, c.isDigit = true := by
  obtain ⟨name, trigger, arguments⟩ := job
  cases trigger with
  | date runDate => exact ⟨_, _, rfl, fun _ => padded_digits⟩
  | interval days hours minutes seconds =>
    obtain ⟨l, a, h, _, hdigits⟩ := int_tail _ seconds
    exact ⟨l, a, h, hdigits⟩
  | cron => exact ⟨name ++ "-cro".toList, [], by simp [PendingJob.id, cronId, Trigger.mark], by simp⟩

/-- Two jobs have one id exactly when function names and slots agree. -/
theorem id_eq_iff (job job' : PendingJob κ) :
    job.id = job'.id ↔ job.name = job'.name ∧ job.trigger.slot = job'.trigger.slot := by
  constructor
  · intro h
    obtain ⟨l, a, hid, hdigits⟩ := id_tail job
    obtain ⟨l', a', hid', hdigits'⟩ := id_tail job'
    have hmark : job.trigger.mark = job'.trigger.mark :=
      (tail_unique hdigits hdigits' job.trigger.mark_not_digit job'.trigger.mark_not_digit
        (hid.symm.trans (h.trans hid'))).2.1
    obtain ⟨name, trigger, arguments⟩ := job
    obtain ⟨name', trigger', arguments'⟩ := job'
    cases trigger <;> cases trigger' <;> simp only [Trigger.mark, Char.reduceEq] at hmark
    · obtain ⟨hname, hsecond⟩ := DateTime.behind_inj h
      exact ⟨hname, congrArg Slot.second hsecond⟩
    · obtain ⟨hname, rfl, rfl, rfl, rfl⟩ := interval_inj h
      exact ⟨hname, rfl⟩
    · exact ⟨List.append_cancel_right h, rfl⟩
  · intro h
    obtain ⟨name, trigger, arguments⟩ := job
    obtain ⟨name', trigger', arguments'⟩ := job'
    obtain ⟨rfl, hslot⟩ : name = name' ∧ trigger.slot = trigger'.slot := h
    cases trigger <;> cases trigger' <;> simp only [Trigger.slot, Slot.second.injEq,
      Slot.interval.injEq, reduceCtorEq] at hslot
    · simp only [PendingJob.id, DateTime.behind, hslot]
    · obtain ⟨rfl, rfl, rfl, rfl⟩ := hslot
      rfl
    · rfl

/-! ### Runs -/

/-- The jobs are under their ids. -/
def Filed (pending : Pending κ) : Prop := ∀ e ∈ pending.entries, e.2.id = e.1

section Runs
variable (accepts : List Char → Trigger → κ → Bool)

/-- A call returns an id that no pending job has, under which its own job is then pending, and the
other jobs stay. -/
def Event.Returns (pending : Pending κ) : Event κ → Prop
  | .call now c => ∃ id pending', c.perform accepts pending now = .ok (id, pending') ∧
      id ∉ pending.keys ∧
      (∃ job, pending'.get? id = some job ∧ job.arguments = c.arguments) ∧
      ∀ k ∈ pending.keys, pending'.get? k = pending.get? k
  | .ended _ => True

/-- A call can be made, and no pending job of a function of its name has its slot. -/
def Event.Fits (pending : Pending κ) : Event κ → Prop
  | .call now c => c.callable = true ∧ ∃ trigger, c.trigger now = .ok trigger ∧
      PendingJob.accepted accepts ⟨c.name, trigger, c.arguments⟩ = true ∧
      ∀ job ∈ pending.values, job.name = c.name → job.trigger.slot ≠ trigger.slot
  | .ended _ => True

variable {accepts} {pending : Pending κ}

theorem Filed.id_mem (h : Filed pending) (job : PendingJob κ) :
    job.id ∈ pending.keys ↔ ∃ job' ∈ pending.values,
      job'.name = job.name ∧ job'.trigger.slot = job.trigger.slot := by
  constructor
  · intro hmem
    obtain ⟨e, he, hid⟩ := List.mem_map.mp hmem
    refine ⟨e.2, List.mem_map_of_mem he, ?_⟩
    exact (id_eq_iff e.2 job).mp ((h e he).trans hid)
  · intro hx
    obtain ⟨job', hmem, hslot⟩ := hx
    obtain ⟨e, he, rfl⟩ := List.mem_map.mp hmem
    refine List.mem_map.mpr ⟨e, he, ?_⟩
    exact (h e he).symm.trans ((id_eq_iff e.2 job).mpr hslot)

theorem addJob_ok_iff (job : PendingJob κ) (result : List Char × Pending κ) :
    addJob accepts pending job = .ok result ↔ job.accepted accepts = true ∧
      job.id ∉ pending.keys ∧ (job.id, pending.set job.id job) = result := by
  unfold addJob
  cases job.accepted accepts with
  | false => simp
  | true => by_cases hmem : job.id ∈ pending.keys <;> simp [hmem]

theorem perform_ok_iff (now : DateTime) (c : Call κ) (result : List Char × Pending κ) :
    c.perform accepts pending now = .ok result ↔ c.callable = true ∧ ∃ trigger,
      c.trigger now = .ok trigger ∧ addJob accepts pending ⟨c.name, trigger, c.arguments⟩ = .ok result := by
  rw [perform_eq]
  cases c.trigger now with
  | error e => simp [Except.bind]
  | ok trigger => cases c.callable <;> simp [Except.bind]

theorem Filed.step (h : Filed pending) {event : Event κ} {pending' : Pending κ}
    (hstep : step accepts pending event = some pending') : Filed pending' := by
  cases event with
  | ended id =>
    obtain rfl := Option.some.inj hstep
    intro e he
    exact h e ((Dict.mem_entries_erase pending id e).mp he).2
  | call now c =>
    cases hperform : c.perform accepts pending now with
    | error e =>
      simp only [WhiteRabbit.step, hperform, Option.some.injEq] at hstep
      exact hstep ▸ h
    | ok result =>
      simp only [WhiteRabbit.step, hperform, Option.some.injEq] at hstep
      obtain ⟨_, trigger, _, hadd⟩ := (perform_ok_iff now c result).mp hperform
      obtain ⟨_, _, rfl⟩ := (addJob_ok_iff _ result).mp hadd
      subst hstep
      intro e he
      rcases (Dict.mem_entries_set pending _ _ e).mp he with rfl | ⟨_, hold⟩
      · rfl
      · exact h e hold

/-- A call returns exactly when it fits. -/
theorem Filed.returns_iff (h : Filed pending) (event : Event κ) :
    event.Returns accepts pending ↔ event.Fits accepts pending := by
  cases event with
  | ended id => exact Iff.rfl
  | call now c =>
    constructor
    · intro hreturns
      obtain ⟨id, pending', hperform, _⟩ := hreturns
      obtain ⟨hcallable, trigger, htrigger, hadd⟩ := (perform_ok_iff now c _).mp hperform
      obtain ⟨haccepted, hnew, _⟩ := (addJob_ok_iff _ _).mp hadd
      refine ⟨hcallable, trigger, htrigger, haccepted, ?_⟩
      intro job hjob hname hslot
      exact hnew ((h.id_mem _).mpr ⟨job, hjob, hname, hslot⟩)
    · intro hfits
      obtain ⟨hcallable, trigger, htrigger, haccepted, hslots⟩ := hfits
      let job : PendingJob κ := ⟨c.name, trigger, c.arguments⟩
      have hnew : job.id ∉ pending.keys := by
        intro hmem
        obtain ⟨job', hjob', hname, hslot⟩ := (h.id_mem job).mp hmem
        exact hslots job' hjob' hname hslot
      have hadd : addJob accepts pending job = .ok (job.id, pending.set job.id job) :=
        (addJob_ok_iff job _).mpr ⟨haccepted, hnew, rfl⟩
      refine ⟨job.id, pending.set job.id job, ?_, hnew, ⟨job, by simp, rfl⟩, ?_⟩
      · exact (perform_ok_iff now c _).mpr ⟨hcallable, trigger, htrigger, hadd⟩
      · intro k hk
        have hne : k ≠ job.id := fun heq => hnew (heq ▸ hk)
        exact Dict.get?_set_other pending job hne

end Runs

/-- In a run of calls and jobs that end, every call returns an id of its own exactly when every call
fits the jobs that are pending. -/
theorem calls_return_iff (accepts : List Char → Trigger → κ → Bool) (events : List (Event κ)) :
    Meets (step accepts) (Event.Returns accepts) .empty events ↔
      Meets (step accepts) (Event.Fits accepts) .empty events := by
  have hempty : Filed (.empty : Pending κ) := by
    intro e he
    cases he
  constructor
  · intro h
    exact h.of_invariant (I := Filed) (fun _ _ _ _ hfiled => hfiled.step)
      (fun _ event hreturns hfiled => (hfiled.returns_iff event).mp hreturns) hempty
  · intro h
    exact h.of_invariant (I := Filed) (fun _ _ _ _ hfiled => hfiled.step)
      (fun _ event hfits hfiled => (hfiled.returns_iff event).mpr hfits) hempty

/-- Noon of January 1, 2024, and half a second later. -/
def noon : DateTime := ⟨(738885 * 86400 + 43200) * 1000000⟩

def reminders : List (Event Unit) := [
  .call noon (.scheduleChatMessage "Tea time" "alice" { minutes := 5 }),
  .call ⟨noon.microseconds + 500000⟩ (.scheduleChatMessage "Off with her head" "queen" { minutes := 5 })]

/-- The second of two users gets no reminder. -/
theorem reminder_lost :
    ¬ Meets (step (fun _ _ (_ : Unit) => true)) (Event.Returns (fun _ _ (_ : Unit) => true))
      .empty reminders := by
  intro h
  let pending : Pending Unit := Dict.empty.set "send_ws_message-01/01/2024-12:05:00".toList
    ⟨"send_ws_message".toList, .date ⟨noon.microseconds + 300000000⟩, .chatMessage "Tea time" "alice"⟩
  have hfirst : step (fun _ _ (_ : Unit) => true) .empty
      (.call noon (.scheduleChatMessage "Tea time" "alice" { minutes := 5 })) = some pending := by
    decide +kernel
  obtain ⟨id, pending', hsecond, _⟩ := (h.2 pending hfirst).1
  have hfails : (Call.perform (fun _ _ (_ : Unit) => true) pending ⟨noon.microseconds + 500000⟩
      (.scheduleChatMessage "Off with her head" "queen" { minutes := 5 })).toOption = none := by
    decide +kernel
  simp [hsecond, Except.toOption] at hfails

end CheshireCat.LookingGlass.WhiteRabbit
