import Mathlib.Data.List.Infix
import Hachee.Foundation.Handler
import Hachee.Lisp.Sequence

/-!
# One engine for many clients (`senn.bin.kkc-proxy-unix`)

The server starts a thread for each client.  The thread handles a request by
`send-recv`: it writes the line to the input of the engine, and then it reads a
line of the output.  All threads share the two streams, and nothing keeps another
thread from writing or reading between the two steps.

The model has the two steps of `send-recv` for every client, and one of the
engine, which answers its input lines in order.  A line that is read is the
response to the first line whose response was not read yet, whoever wrote it.  So
all clients receive their own responses just when they read in the order in which
they wrote (`own_iff_in_order`).  They do when no client writes while another one
waits (`own_of_exclusive`).
-/

namespace Hachee.Senn.Bin.KkcProxy

open Lisp Foundation

/-- What the engine answers to its last input line, after the lines before it. -/
abbrev Engine := List Str → Str

/-- The two streams and the threads.  A thread that waits has written the line with
the number `ticket`. -/
structure Proxy (ι : Type) where
  /-- The lines written to the input. -/
  lines : List Str
  /-- How many of them the engine has answered. -/
  answered : Nat
  /-- How many lines of the output were read. -/
  taken : Nat
  ticket : ι → Option Nat

/-- A step of a thread or of the engine. -/
inductive Action (ι : Type) where
  /-- `(write-line line in-stream)` and `(force-output in-stream)`. -/
  | write (client : ι) (line : Str)
  /-- The engine answers its next input line. -/
  | answer
  /-- `(read-line out-stream nil nil nil)`. -/
  | read (client : ι)

/-- A client receives the response with the number `response` to its request with the
number `request`. -/
structure Delivery (ι : Type) where
  client : ι
  request : Nat
  response : Nat
  text : Str

section Steps

variable {ι : Type} [DecidableEq ι]

/-- No client has sent a request. -/
def Proxy.initial : Proxy ι := { lines := [], answered := 0, taken := 0, ticket := fun _ => none }

/-- One step.  A thread writes when it has a request, and it reads after that, as soon
as there is a line. -/
def step (engine : Engine) : Handler (Action ι) (Proxy ι) (Option (Delivery ι)) :=
  fun action proxy =>
    match action with
    | .write client line =>
        match proxy.ticket client with
        | some _ => none
        | none =>
            some (none, { proxy with
              lines := proxy.lines ++ [line]
              ticket := fun i => if i = client then some proxy.lines.length else proxy.ticket i })
    | .answer =>
        if proxy.answered < proxy.lines.length then
          some (none, { proxy with answered := proxy.answered + 1 })
        else none
    | .read client =>
        match proxy.ticket client with
        | none => none
        | some request =>
            if proxy.taken < proxy.answered then
              some (some
                  { client := client
                    request := request
                    response := proxy.taken
                    text := engine (proxy.lines.take (proxy.taken + 1)) },
                { proxy with
                  taken := proxy.taken + 1
                  ticket := fun i => if i = client then none else proxy.ticket i })
            else none

/-! ## What the steps do -/

variable {engine : Engine} {proxy proxy' : Proxy ι} {output : Option (Delivery ι)}

theorem step_write {client : ι} {line : Str}
    (h : step engine (.write client line) proxy = some (output, proxy')) :
    proxy.ticket client = none ∧ output = none ∧ proxy' = { proxy with
      lines := proxy.lines ++ [line]
      ticket := fun i => if i = client then some proxy.lines.length else proxy.ticket i } := by
  cases hticket : proxy.ticket client with
  | some t => simp [step, hticket] at h
  | none =>
      simp only [step, hticket, Option.some.injEq, Prod.mk.injEq] at h
      exact ⟨rfl, h.1.symm, h.2.symm⟩

theorem step_answer (h : step engine .answer proxy = some (output, proxy')) :
    proxy.answered < proxy.lines.length ∧ output = none ∧
      proxy' = { proxy with answered := proxy.answered + 1 } := by
  obtain ⟨hlt, hsome⟩ | ⟨-, hnone⟩ := ite_inv h
  · cases hsome
    exact ⟨hlt, rfl, rfl⟩
  · cases hnone

theorem step_read {client : ι} (h : step engine (.read client) proxy = some (output, proxy')) :
    ∃ request, proxy.ticket client = some request ∧ proxy.taken < proxy.answered ∧
      output = some
        { client := client
          request := request
          response := proxy.taken
          text := engine (proxy.lines.take (proxy.taken + 1)) } ∧
      proxy' = { proxy with
        taken := proxy.taken + 1
        ticket := fun i => if i = client then none else proxy.ticket i } := by
  cases hticket : proxy.ticket client with
  | none => simp [step, hticket] at h
  | some request =>
      simp only [step, hticket] at h
      obtain ⟨hlt, hsome⟩ | ⟨-, hnone⟩ := ite_inv h
      · cases hsome
        exact ⟨request, rfl, hlt, rfl, rfl⟩
      · cases hnone

end Steps

/-! ## The order of the clients -/

section Order

variable {ι : Type} [DecidableEq ι] {engine : Engine}

/-- A run of the proxy. -/
abbrev Steps (ι : Type) := List (Handler.Step (Action ι) (Proxy ι) (Option (Delivery ι)))

/-- The clients in the order in which they wrote. -/
def writers (steps : Steps ι) : List ι :=
  steps.filterMap fun s => match s.request with
    | .write client _ => some client
    | _ => none

/-- The clients in the order in which they read. -/
def readers (steps : Steps ι) : List ι :=
  steps.filterMap fun s => match s.request with
    | .read client => some client
    | _ => none

/-- Every client receives the response to its own request. -/
def Own (steps : Steps ι) : Prop :=
  ∀ s ∈ steps, ∀ delivery, s.output = some delivery → delivery.response = delivery.request

/-- The clients read in the order in which they wrote. -/
def InOrder (steps : Steps ι) : Prop := readers steps <+: writers steps

/-- The clients that wait, in the order of their requests, are those whose responses
were not read.  This holds as long as every client received its own response. -/
structure Queued (proxy : Proxy ι) (queue : List ι) : Prop where
  length : proxy.lines.length = proxy.taken + queue.length
  answered : proxy.answered ≤ proxy.lines.length
  ticket : ∀ client t, proxy.ticket client = some t ↔
    ∃ k, t = proxy.taken + k ∧ queue[k]? = some client

omit [DecidableEq ι] in
theorem queued_initial : Queued (Proxy.initial : Proxy ι) [] where
  length := rfl
  answered := Nat.le_refl 0
  ticket := by
    intro client t
    simp [Proxy.initial]

variable {proxy proxy' : Proxy ι} {output : Option (Delivery ι)} {queue : List ι}

omit [DecidableEq ι] in
theorem Queued.ticket_eq_none (h : Queued proxy queue) {client : ι} :
    proxy.ticket client = none ↔ client ∉ queue := by
  constructor
  · intro hnone hmem
    obtain ⟨k, hk⟩ := List.mem_iff_getElem?.mp hmem
    have hsome := (h.ticket client _).mpr ⟨k, rfl, hk⟩
    rw [hnone] at hsome
    cases hsome
  · intro hnot
    cases hticket : proxy.ticket client with
    | none => rfl
    | some t =>
        obtain ⟨k, -, hk⟩ := (h.ticket client t).mp hticket
        exact absurd (List.mem_of_getElem? hk) hnot

/-- A client that writes waits behind all others. -/
theorem Queued.write (h : Queued proxy queue) {client : ι} {line : Str}
    (hstep : step engine (.write client line) proxy = some (output, proxy')) :
    Queued proxy' (queue ++ [client]) := by
  obtain ⟨hnone, -, rfl⟩ := step_write hstep
  have hnot := h.ticket_eq_none.mp hnone
  have hlength := h.length
  refine ⟨by simp; omega, ?_, ?_⟩
  · have := h.answered
    simp
    omega
  · intro i t
    by_cases hi : i = client
    · subst hi
      simp only [if_true, Option.some.injEq]
      constructor
      · intro ht
        exact ⟨queue.length, by omega, by simp⟩
      · intro hk
        obtain ⟨k, rfl, hk⟩ := hk
        cases Nat.lt_or_ge k queue.length with
        | inl hlt =>
            rw [List.getElem?_append_left hlt] at hk
            exact absurd (List.mem_of_getElem? hk) hnot
        | inr hge =>
            have hbound := (List.getElem?_eq_some_iff.mp hk).1
            rw [List.length_append, List.length_singleton] at hbound
            omega
    · simp only [if_neg hi, h.ticket i t]
      constructor
      · intro hk
        obtain ⟨k, rfl, hk⟩ := hk
        exact ⟨k, rfl, (List.getElem?_append_left (List.getElem?_eq_some_iff.mp hk).1).trans hk⟩
      · intro hk
        obtain ⟨k, rfl, hk⟩ := hk
        refine ⟨k, rfl, ?_⟩
        cases Nat.lt_or_ge k queue.length with
        | inl hlt => rwa [List.getElem?_append_left hlt] at hk
        | inr hge =>
            rw [List.getElem?_append_right hge] at hk
            have hmem := List.mem_singleton.mp (List.mem_of_getElem? hk)
            exact absurd hmem hi

theorem Queued.answer (h : Queued proxy queue)
    (hstep : step engine .answer proxy = some (output, proxy')) : Queued proxy' queue := by
  obtain ⟨hlt, -, rfl⟩ := step_answer hstep
  exact ⟨h.length, hlt, h.ticket⟩

/-- A client that reads its own response was the first one. -/
theorem Queued.read {client next : ι} (h : Queued proxy (next :: queue))
    (hstep : step engine (.read client) proxy = some (output, proxy')) :
    ∃ delivery, output = some delivery ∧
      (delivery.response = delivery.request ↔ client = next) ∧
      (client = next → Queued proxy' queue) := by
  obtain ⟨request, hticket, hlt, rfl, rfl⟩ := step_read hstep
  obtain ⟨k, rfl, hk⟩ := (h.ticket client request).mp hticket
  have hunique : ∀ {j : Nat}, (next :: queue)[j]? = some client → j = k := by
    intro j hj
    have ht := (h.ticket client _).mpr ⟨j, rfl, hj⟩
    rw [hticket, Option.some.injEq] at ht
    omega
  refine ⟨_, rfl, ?_, ?_⟩
  · constructor
    · intro hown
      have hzero : k = 0 := by
        have : proxy.taken = proxy.taken + k := hown
        omega
      rw [hzero] at hk
      exact (Option.some.inj hk).symm
    · intro heq
      have hzero : 0 = k := hunique (by rw [heq]; rfl)
      rw [← hzero]
      rfl
  · intro heq
    have hzero : 0 = k := hunique (by rw [heq]; rfl)
    have hlength := h.length
    rw [List.length_cons] at hlength
    refine ⟨by simp; omega, h.answered, ?_⟩
    intro i t
    by_cases hi : i = client
    · subst hi
      simp only [if_true]
      constructor
      · intro ht
        cases ht
      · intro hj
        obtain ⟨j, rfl, hj⟩ := hj
        have := hunique (j := j + 1) hj
        omega
    · simp only [if_neg hi, h.ticket i t]
      constructor
      · intro hj
        obtain ⟨j, rfl, hj⟩ := hj
        cases j with
        | zero => exact absurd ((Option.some.inj hj).symm.trans heq.symm) hi
        | succ j => exact ⟨j, by omega, hj⟩
      · intro hj
        obtain ⟨j, rfl, hj⟩ := hj
        exact ⟨j + 1, by omega, hj⟩

/-- Behind a queue of waiting clients the responses are their own just when the
readers are the queue and the writers behind it, in order.  The induction is on the
run. -/
theorem own_iff_of_queued {steps : Steps ι} (hp : Handler.Path (step engine) proxy steps) :
    ∀ {queue : List ι}, Queued proxy queue →
      (Own steps ↔ readers steps <+: queue ++ writers steps) := by
  induction hp with
  | nil =>
      intro queue _
      exact ⟨fun _ => List.nil_prefix, fun _ s hs => by cases hs⟩
  | @cons action s s' o rest hstep hp ih =>
      intro queue hqueued
      have hown : Own (⟨s, action, o, s'⟩ :: rest) ↔
          (∀ delivery, o = some delivery → delivery.response = delivery.request) ∧ Own rest := by
        simp only [Own, List.forall_mem_cons]
      rw [hown]
      cases action with
      | write client line =>
          have hrest := ih (hqueued.write hstep)
          obtain ⟨-, rfl, -⟩ := step_write hstep
          rw [hrest, List.append_assoc]
          exact ⟨fun h => h.2, fun h => ⟨fun _ hd => (by cases hd), h⟩⟩
      | answer =>
          have hrest := ih (hqueued.answer hstep)
          obtain ⟨-, rfl, -⟩ := step_answer hstep
          rw [hrest]
          exact ⟨fun h => h.2, fun h => ⟨fun _ hd => (by cases hd), h⟩⟩
      | read client =>
          cases queue with
          | nil =>
              obtain ⟨request, hticket, -⟩ := step_read hstep
              rw [hqueued.ticket_eq_none.mpr List.not_mem_nil] at hticket
              cases hticket
          | cons next queue =>
              obtain ⟨delivery, rfl, hiff, hkeep⟩ := hqueued.read hstep
              have hreaders : readers (⟨s, .read client, some delivery, s'⟩ :: rest) =
                  client :: readers rest := rfl
              have hwriters : writers (⟨s, .read client, some delivery, s'⟩ :: rest) =
                  writers rest := rfl
              rw [hreaders, hwriters, List.cons_append, List.cons_prefix_cons]
              constructor
              · intro h
                have heq := hiff.mp (h.1 delivery rfl)
                exact ⟨heq, (ih (hkeep heq)).mp h.2⟩
              · intro h
                refine ⟨fun d hd => ?_, (ih (hkeep h.1)).mpr h.2⟩
                cases hd
                exact hiff.mpr h.1

/-- All clients receive their own responses just when they read in the order in which
they wrote. -/
theorem own_iff_in_order {steps : Steps ι}
    (hp : Handler.Path (step engine) Proxy.initial steps) : Own steps ↔ InOrder steps :=
  own_iff_of_queued hp queued_initial

/-- The line that is read is the response to the line with its number. -/
theorem text_of_path {s₀ : Proxy ι} {steps : Steps ι} (hp : Handler.Path (step engine) s₀ steps) :
    ∀ s ∈ steps, ∀ delivery, s.output = some delivery →
      delivery.text = engine (s.state.lines.take (delivery.response + 1)) := by
  intro s hs delivery hdelivery
  have hstep := hp.answer hs
  obtain ⟨state, action, o, next⟩ := s
  subst hdelivery
  cases action with
  | write client line =>
      obtain ⟨-, hnone, -⟩ := step_write hstep
      cases hnone
  | answer =>
      obtain ⟨-, hnone, -⟩ := step_answer hstep
      cases hnone
  | read client =>
      obtain ⟨request, -, -, hsome, -⟩ := step_read hstep
      have heq : delivery = _ := Option.some.inj hsome
      rw [heq]

/-- No client writes while another one waits. -/
def Exclusive (steps : Steps ι) : Prop :=
  ∀ s ∈ steps, ∀ client line, s.request = .write client line → ∀ i, s.state.ticket i = none

theorem own_of_exclusive_queued {steps : Steps ι}
    (hp : Handler.Path (step engine) proxy steps) :
    ∀ {queue : List ι}, Queued proxy queue → queue.length ≤ 1 → Exclusive steps → Own steps := by
  induction hp with
  | nil =>
      intro queue _ _ _ s hs
      cases hs
  | @cons action s s' o rest hstep hp ih =>
      intro queue hqueued hone hexclusive
      have hrest : Exclusive rest := fun x hx => hexclusive x (List.mem_cons_of_mem _ hx)
      have hcons : (∀ delivery, o = some delivery → delivery.response = delivery.request) →
          Own rest → Own (⟨s, action, o, s'⟩ :: rest) := by
        intro hhead htail
        simp only [Own, List.forall_mem_cons]
        exact ⟨hhead, htail⟩
      cases action with
      | write client line =>
          have hempty : queue = [] := by
            refine List.eq_nil_iff_forall_not_mem.mpr fun i => ?_
            exact hqueued.ticket_eq_none.mp (hexclusive _ List.mem_cons_self client line rfl i)
          subst hempty
          obtain ⟨-, rfl, -⟩ := step_write hstep
          exact hcons (fun _ hd => by cases hd) (ih (hqueued.write hstep) (Nat.le_refl 1) hrest)
      | answer =>
          obtain ⟨-, rfl, -⟩ := step_answer hstep
          exact hcons (fun _ hd => by cases hd) (ih (hqueued.answer hstep) hone hrest)
      | read client =>
          obtain ⟨request, hticket, -⟩ := step_read hstep
          cases queue with
          | nil =>
              rw [hqueued.ticket_eq_none.mpr List.not_mem_nil] at hticket
              cases hticket
          | cons next queue =>
              have hnil : queue = [] :=
                List.eq_nil_of_length_eq_zero (by rw [List.length_cons] at hone; omega)
              subst hnil
              obtain ⟨k, -, hk⟩ := (hqueued.ticket client request).mp hticket
              have hclient : client = next := List.mem_singleton.mp (List.mem_of_getElem? hk)
              obtain ⟨delivery, rfl, hiff, hkeep⟩ := hqueued.read hstep
              refine hcons (fun d hd => ?_) (ih (hkeep hclient) (Nat.zero_le 1) hrest)
              cases hd
              exact hiff.mpr hclient

/-- One request at a time is enough. -/
theorem own_of_exclusive {steps : Steps ι}
    (hp : Handler.Path (step engine) Proxy.initial steps) (h : Exclusive steps) : Own steps :=
  own_of_exclusive_queued hp queued_initial (Nat.zero_le 1) h

end Order

/-! ## Two clients -/

/-- An engine that answers a line with the line. -/
def echo : Engine := fun lines => lines.getLastD []

/-- Two clients write, and they read in the same order. -/
theorem own_of_path_in_order :
    ∃ steps, Handler.Path (step echo) (Proxy.initial : Proxy Nat) steps ∧
      steps.map Handler.Step.request = [.write 0 ['a'], .write 1 ['b'], .answer, .answer, .read 0,
        .read 1] ∧ Own steps := by
  have hpath : Handler.Path (step echo) (Proxy.initial : Proxy Nat) _ :=
    .cons (r := .write 0 ['a']) rfl (.cons (r := .write 1 ['b']) rfl (.cons (r := .answer) rfl
      (.cons (r := .answer) rfl (.cons (r := .read 0) rfl (.cons (r := .read 1) rfl .nil)))))
  refine ⟨_, hpath, rfl, (own_iff_in_order hpath).mpr ?_⟩
  exact List.prefix_rfl

/-- Two clients write, and the second one reads first: it receives the response to the
line of the first one. -/
theorem not_own_of_path :
    ∃ steps, Handler.Path (step echo) (Proxy.initial : Proxy Nat) steps ∧ ¬Own steps ∧
      ∃ s ∈ steps, s.output = some { client := 1, request := 1, response := 0, text := ['a'] } := by
  have hpath : Handler.Path (step echo) (Proxy.initial : Proxy Nat) _ :=
    .cons (r := .write 0 ['a']) rfl (.cons (r := .write 1 ['b']) rfl (.cons (r := .answer) rfl
      (.cons (r := .answer) rfl (.cons (r := .read 1) rfl .nil))))
  refine ⟨_, hpath, fun h => ?_, _, List.getLast_mem (List.cons_ne_nil _ _), rfl⟩
  have hown := h _ (List.getLast_mem (List.cons_ne_nil _ _)) _ rfl
  exact absurd hown (by decide)

end Hachee.Senn.Bin.KkcProxy
