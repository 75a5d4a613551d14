import Mathlib.Data.Finmap
import Mathlib.Logic.Function.Basic
import LaserSdk.Lib.Runs
import LaserSdk.Agent.Worker
/-!
# Tickets of a reply hub

A hub keeps one waiter for each correlation and completes it with the reply that
names the correlation. A request subscribes, is sent, arms its ticket with the
address it was committed at, and waits. Completing a waiter is three effects:
its sender is taken under the waiter's lock, the correlation is forgotten, and
the reply is sent. Other tasks run in between.

A waiter is found by its correlation alone. So a ticket acts on whatever waiter
is there, which is its own as long as no other ticket has its correlation.
-/

namespace LaserSdk.Agent

/-! ## Replies -/

/-- A decoded record of the reply topic. -/
structure ReplyRecord where
  message : AgentMessage
  id : MessageId
  payload : List UInt8
  deriving DecidableEq, Repr

structure Reply where
  message : AgentMessage
  id : MessageId
  payload : List UInt8
  verifiedPrincipal : Option String
  deriving DecidableEq, Repr

/-- What a record must carry to answer one request. -/
structure ExpectedReply where
  session : ConversationId
  requester : Option String
  deriving DecidableEq, Repr

/-- A request that named its sender is answered to that sender. -/
def answersTo : Option String → Option String → Bool
  | some requester, some addressee => requester == addressee
  | some _, none => false
  | none, _ => true

def ExpectedReply.accepts (expected : ExpectedReply) (reply : Reply) : Bool :=
  if reply.message.provenance.conversationId ≠ expected.session then false
  else
    match reply.message.envelope with
    | some envelope =>
      if envelope.kind = .response ∨ envelope.kind = .error then answersTo expected.requester envelope.target else false
    | none => answersTo expected.requester reply.message.provenance.targetAgentId

/-! ## The hub -/

def pendingReplyLimit : Nat := 64

structure ReplyWaiter where
  /-- The ticket that registered it. No function reads it. -/
  owner : Nat
  /-- The ticket that its sender completes. -/
  sender : Option Nat
  request : Option (Option MessageId)
  pending : List Reply
  expected : ExpectedReply
  expectedSigner : Option String
  deriving DecidableEq

structure ReplyTicket where
  correlation : String
  expected : ExpectedReply
  /-- What it was armed with. -/
  request : Option (Option MessageId)
  live : Bool
  received : Option Reply
  deriving DecidableEq

/-- A sender that was taken, with the reply for it. -/
structure Completion where
  correlation : String
  ticket : Nat
  reply : Reply
  deriving DecidableEq

structure ReplyHub where
  waiters : Finmap fun _ : String => ReplyWaiter
  tickets : Nat → Option ReplyTicket
  made : Nat
  /-- Before `forget`. -/
  taken : List Completion
  /-- After `forget`, before the send. -/
  sending : List Completion

namespace ReplyHub

def new : ReplyHub := { waiters := ∅, tickets := fun _ => none, made := 0, taken := [], sending := [] }

def setTicket (s : ReplyHub) (t : Nat) (ticket : ReplyTicket) : ReplyHub :=
  { s with tickets := Function.update s.tickets t (some ticket) }

def setWaiter (s : ReplyHub) (correlation : String) (waiter : ReplyWaiter) : ReplyHub :=
  { s with waiters := s.waiters.insert correlation waiter }

def forget (s : ReplyHub) (correlation : String) : ReplyHub := { s with waiters := s.waiters.erase correlation }

/-- Register a waiter. One that is there already is replaced. -/
def subscribe (s : ReplyHub) (correlation : String) (expected : ExpectedReply) (expectedSigner : Option String) : ReplyHub :=
  { s with made := s.made + 1 }.setTicket s.made ⟨correlation, expected, none, true, none⟩
    |>.setWaiter correlation ⟨s.made, some s.made, none, [], expected, expectedSigner⟩

/-- Take the sender of a waiter, if it is still there. -/
def take (s : ReplyHub) (correlation : String) (waiter : ReplyWaiter) (reply : Reply) : ReplyHub :=
  match waiter.sender with
  | some t => { s.setWaiter correlation { waiter with sender := none } with taken := s.taken ++ [⟨correlation, t, reply⟩] }
  | none => s.setWaiter correlation waiter

/-- Bind the address of the request on the waiter of its correlation, and take
the first pending reply that is not the request. -/
def armWaiter (s : ReplyHub) (correlation : String) (request : Option MessageId) : ReplyHub :=
  match s.waiters.lookup correlation with
  | none => s
  | some waiter =>
    let armed := { waiter with request := some request }
    match waiter.pending.find? fun reply => request ≠ some reply.id with
    | none => s.setWaiter correlation armed
    | some reply => s.take correlation { armed with pending := waiter.pending.erase reply } reply

/-- The principal of a record, or none when the hub or the waiter refuses it. -/
def principal (verifier : Option (ReplyRecord → Option String)) (expectedSigner : Option String) (record : ReplyRecord) :
    Option (Option String) :=
  match verifier with
  | none => some none
  | some verify =>
    match verify record with
    | none => none
    | some verified => if expectedSigner.all (· = verified) then some (some verified) else none

/-- One record of `dispatch_batch`, up to where its waiter is unlocked. -/
def dispatch (verifier : Option (ReplyRecord → Option String)) (s : ReplyHub) (record : ReplyRecord) : ReplyHub :=
  match record.message.provenance.correlationId with
  | none => s
  | some correlation =>
    match s.waiters.lookup correlation with
    | none => s
    | some waiter =>
      match principal verifier waiter.expectedSigner record with
      | none => s
      | some verified =>
        let reply : Reply := ⟨record.message, record.id, record.payload, verified⟩
        if waiter.expected.accepts reply then
          match waiter.request with
          | none =>
            let kept := if waiter.pending.length = pendingReplyLimit then waiter.pending.tail else waiter.pending
            s.setWaiter correlation { waiter with pending := kept ++ [reply] }
          | some request => if request = some reply.id then s else s.take correlation waiter reply
        else s

end ReplyHub

inductive ReplyAction where
  | subscribe (correlation : String) (expected : ExpectedReply) (expectedSigner : Option String)
  | arm (ticket : Nat) (request : Option MessageId)
  | dispatch (record : ReplyRecord)
  /-- A completion forgets its correlation. -/
  | forget (completion : Completion)
  | send (completion : Completion)
  /-- A ticket is dropped: after its reply, on a timeout, or unused. -/
  | drop (ticket : Nat)

/-- One effect on the hub. A request arms its ticket once. -/
def ReplyHub.next (verifier : Option (ReplyRecord → Option String)) (s : ReplyHub) : ReplyAction → Option ReplyHub
  | .subscribe correlation expected expectedSigner => some (s.subscribe correlation expected expectedSigner)
  | .arm t request =>
    match s.tickets t with
    | some ticket =>
      if ticket.live = true ∧ ticket.request = none then
        some ((s.setTicket t { ticket with request := some request }).armWaiter ticket.correlation request)
      else none
    | none => none
  | .dispatch record => some (s.dispatch verifier record)
  | .forget completion =>
    if completion ∈ s.taken then
      some { s.forget completion.correlation with
        taken := s.taken.erase completion, sending := s.sending ++ [completion] }
    else none
  | .send completion =>
    if completion ∈ s.sending then
      let sent := { s with sending := s.sending.erase completion }
      match s.tickets completion.ticket with
      | some ticket =>
        if ticket.live then some (sent.setTicket completion.ticket { ticket with received := some completion.reply })
        else some sent
      | none => some sent
    else none
  | .drop t =>
    match s.tickets t with
    | some ticket => if ticket.live then some ((s.setTicket t { ticket with live := false }).forget ticket.correlation) else none
    | none => none

def ReplyHub.Step (verifier : Option (ReplyRecord → Option String)) (s : ReplyHub) (a : ReplyAction) (s' : ReplyHub) : Prop :=
  s.next verifier a = some s'

/-! ## Isolation -/

/-- A live ticket's own waiter is registered, with this address. -/
def ReplyHub.Registered (s : ReplyHub) (t : Nat) (request : Option (Option MessageId)) : Prop :=
  ∃ ticket waiter, s.tickets t = some ticket ∧ ticket.live = true ∧ s.waiters.lookup ticket.correlation = some waiter ∧
    waiter.owner = t ∧ waiter.request = request

/-- The ticket that an action is on behalf of. -/
def ReplyAction.ticket : ReplyAction → Option Nat
  | .arm t _ | .drop t => some t
  | .forget completion | .send completion => some completion.ticket
  | .subscribe _ _ _ | .dispatch _ => none

/-- An action for one ticket leaves the registration and the address of every
other one. -/
def Isolated (s : ReplyHub) (a : ReplyAction) (s' : ReplyHub) : Prop :=
  ∀ t, a.ticket = some t → ∀ u, u ≠ t → ∀ request, s.Registered u request → s'.Registered u request

/-- The reply answers the ticket and is not its request. -/
def ReplyTicket.Answered (ticket : ReplyTicket) (reply : Reply) : Prop :=
  ticket.expected.accepts reply = true ∧ ∀ address, ticket.request = some (some address) → reply.id ≠ address

def AllAnswered (s : ReplyHub) : Prop :=
  ∀ t ticket reply, s.tickets t = some ticket → ticket.received = some reply → ticket.Answered reply

/-- A subscription takes a correlation that no live ticket has, and that no
completion is about to forget. -/
def ReplyAction.Fresh (s : ReplyHub) : ReplyAction → Prop
  | .subscribe correlation _ _ =>
    (∀ t ticket, s.tickets t = some ticket → ticket.live = true → ticket.correlation ≠ correlation) ∧
      ∀ completion ∈ s.taken, completion.correlation ≠ correlation
  | _ => True

def ReplyHub.FreshStep (verifier : Option (ReplyRecord → Option String)) (s : ReplyHub) (a : ReplyAction) (s' : ReplyHub) : Prop :=
  a.Fresh s ∧ s.Step verifier a s'

/-! ## The invariant -/

/-- A waiter of a live ticket, kept like it. -/
structure Matches (ticket : ReplyTicket) (correlation : String) (w : ReplyWaiter) : Prop where
  live : ticket.live = true
  correlation : ticket.correlation = correlation
  expected : w.expected = ticket.expected
  request : w.request = ticket.request
  sender : ∀ t ∈ w.sender, t = w.owner
  pending : ∀ reply ∈ w.pending, ticket.expected.accepts reply = true

structure HubInv (s : ReplyHub) : Prop where
  waiters : ∀ correlation w, s.waiters.lookup correlation = some w →
    ∃ ticket, s.tickets w.owner = some ticket ∧ Matches ticket correlation w
  unique : ∀ t u ticket ticket', s.tickets t = some ticket → s.tickets u = some ticket' → ticket.live = true →
    ticket'.live = true → ticket.correlation = ticket'.correlation → t = u
  made : ∀ t ticket, s.tickets t = some ticket → t < s.made
  taken : ∀ x ∈ s.taken, (∃ ticket, s.tickets x.ticket = some ticket ∧ ticket.request.isSome = true ∧ ticket.Answered x.reply) ∧
    ∀ u ticket, s.tickets u = some ticket → ticket.live = true → ticket.correlation = x.correlation → u = x.ticket
  sending : ∀ x ∈ s.sending, ∃ ticket, s.tickets x.ticket = some ticket ∧ ticket.request.isSome = true ∧ ticket.Answered x.reply
  answered : ∀ t ticket reply, s.tickets t = some ticket → ticket.received = some reply →
    ticket.request.isSome = true ∧ ticket.Answered reply

/-- What an action does to a ticket. -/
structure Evolves (ticket ticket' : ReplyTicket) : Prop where
  correlation : ticket'.correlation = ticket.correlation
  expected : ticket'.expected = ticket.expected
  request : ticket.request.isSome = true → ticket'.request = ticket.request
  live : ticket'.live = true → ticket.live = true

theorem Evolves.refl (ticket : ReplyTicket) : Evolves ticket ticket := ⟨rfl, rfl, fun _ => rfl, fun h => h⟩

/-- An answer stays one. -/
theorem Evolves.answered {ticket ticket' : ReplyTicket} (h : Evolves ticket ticket') {reply : Reply}
    (hasked : ticket.request.isSome = true) (hanswered : ticket.Answered reply) :
    ticket'.request.isSome = true ∧ ticket'.Answered reply := by
  unfold ReplyTicket.Answered at *
  rw [h.request hasked, h.expected]
  exact ⟨hasked, hanswered⟩

section

variable {s s' : ReplyHub} {t : Nat} {ticket ticket' : ReplyTicket}

@[simp]
theorem setTicket_self (s : ReplyHub) (t : Nat) (ticket : ReplyTicket) : (s.setTicket t ticket).tickets t = some ticket := by
  simp [ReplyHub.setTicket]

theorem setTicket_of_ne (s : ReplyHub) {t u : Nat} (hne : u ≠ t) (ticket : ReplyTicket) :
    (s.setTicket t ticket).tickets u = s.tickets u := by
  simp [ReplyHub.setTicket, hne]

/-- Each ticket after a change of one was there before. -/
theorem setTicket_evolves (hticket : s.tickets t = some ticket) (hevolves : Evolves ticket ticket') :
    ∀ u new, (s.setTicket t ticket').tickets u = some new → ∃ old, s.tickets u = some old ∧ Evolves old new := by
  intro u new hnew
  by_cases heq : u = t
  · rw [heq, setTicket_self] at hnew
    cases hnew
    exact ⟨ticket, heq ▸ hticket, hevolves⟩
  · rw [setTicket_of_ne s heq] at hnew
    exact ⟨new, hnew, Evolves.refl new⟩

theorem setTicket_later (hticket : s.tickets t = some ticket) (hevolves : Evolves ticket ticket') :
    ∀ u old, s.tickets u = some old → ∃ new, (s.setTicket t ticket').tickets u = some new ∧ Evolves old new := by
  intro u old hold
  by_cases heq : u = t
  · rw [heq, hticket] at hold
    cases hold
    exact ⟨ticket', heq ▸ setTicket_self s t ticket', hevolves⟩
  · exact ⟨old, (setTicket_of_ne s heq ticket').trans hold, Evolves.refl old⟩

/-- The parts of the invariant that speak of tickets only, when those evolve. -/
theorem HubInv.evolve (h : HubInv s) (hmade : s'.made = s.made)
    (hbefore : ∀ u new, s'.tickets u = some new → ∃ old, s.tickets u = some old ∧ Evolves old new)
    (hlater : ∀ u old, s.tickets u = some old → ∃ new, s'.tickets u = some new ∧ Evolves old new)
    (hwaiters : ∀ correlation w, s'.waiters.lookup correlation = some w →
      ∃ ticket, s'.tickets w.owner = some ticket ∧ Matches ticket correlation w)
    (htaken : ∀ x ∈ s'.taken, x ∈ s.taken ∨
      (∃ ticket, s'.tickets x.ticket = some ticket ∧ ticket.live = true ∧ ticket.correlation = x.correlation ∧
        ticket.request.isSome = true ∧ ticket.Answered x.reply))
    (hsending : ∀ x ∈ s'.sending, x ∈ s.sending ∨ x ∈ s.taken)
    (hreceived : ∀ u new, s'.tickets u = some new → ∀ reply, new.received = some reply →
      (∃ old, s.tickets u = some old ∧ old.received = some reply) ∨ ∃ x ∈ s.sending, x.ticket = u ∧ x.reply = reply) :
    HubInv s' := by
  have hunique : ∀ t u ticket ticket', s'.tickets t = some ticket → s'.tickets u = some ticket' → ticket.live = true →
      ticket'.live = true → ticket.correlation = ticket'.correlation → t = u := by
    intro t u new new' hnew hnew' hlive hlive' hsame
    obtain ⟨old, hold, hevolves⟩ := hbefore t new hnew
    obtain ⟨old', hold', hevolves'⟩ := hbefore u new' hnew'
    refine h.unique t u old old' hold hold' (hevolves.live hlive) (hevolves'.live hlive') ?_
    rw [← hevolves.correlation, ← hevolves'.correlation]
    exact hsame
  have hkeep : ∀ x : Completion, (∃ ticket, s.tickets x.ticket = some ticket ∧ ticket.request.isSome = true ∧ ticket.Answered x.reply) →
      ∃ ticket, s'.tickets x.ticket = some ticket ∧ ticket.request.isSome = true ∧ ticket.Answered x.reply := by
    rintro x ⟨old, hold, hasked, hanswered⟩
    obtain ⟨new, hnew, hevolves⟩ := hlater x.ticket old hold
    exact ⟨new, hnew, hevolves.answered hasked hanswered⟩
  refine ⟨hwaiters, hunique, fun u new hnew => ?_, fun x hx => ?_, fun x hx => ?_, fun u new reply hnew hreply => ?_⟩
  · obtain ⟨old, hold, -⟩ := hbefore u new hnew
    rw [hmade]
    exact h.made u old hold
  · rcases htaken x hx with hold | ⟨new, hnew, hlive, hcorrelation, hasked, hanswered⟩
    · obtain ⟨hanswer, honly⟩ := h.taken x hold
      refine ⟨hkeep x hanswer, fun u new hnew hlive hcorrelation => ?_⟩
      obtain ⟨old, hold, hevolves⟩ := hbefore u new hnew
      exact honly u old hold (hevolves.live hlive) (hevolves.correlation.symm.trans hcorrelation)
    · refine ⟨⟨new, hnew, hasked, hanswered⟩, fun u new' hnew' hlive' hcorrelation' => ?_⟩
      exact hunique u x.ticket new' new hnew' hnew hlive' hlive (hcorrelation'.trans hcorrelation.symm)
  · rcases hsending x hx with hold | hold
    · exact hkeep x (h.sending x hold)
    · exact hkeep x (h.taken x hold).1
  · obtain ⟨old, hold, hevolves⟩ := hbefore u new hnew
    rcases hreceived u new hnew reply hreply with ⟨old', hold', hreply'⟩ | ⟨x, hx, hticket, rfl⟩
    · obtain ⟨hasked, hanswered⟩ := h.answered u old' reply hold' hreply'
      cases hold.symm.trans hold'
      exact hevolves.answered hasked hanswered
    · obtain ⟨new', hnew', hasked, hanswered⟩ := hkeep x (h.sending x hx)
      rw [hticket, hnew] at hnew'
      cases hnew'
      exact ⟨hasked, hanswered⟩

/-! ## Waiters -/

theorem lookup_setWaiter {correlation correlation' : String} {w w' : ReplyWaiter}
    (h : (s.setWaiter correlation w).waiters.lookup correlation' = some w') :
    (correlation' = correlation ∧ w' = w) ∨ (correlation' ≠ correlation ∧ s.waiters.lookup correlation' = some w') := by
  by_cases heq : correlation' = correlation
  · rw [heq] at h
    cases (Finmap.lookup_insert s.waiters).symm.trans h
    exact .inl ⟨heq, rfl⟩
  · exact .inr ⟨heq, (Finmap.lookup_insert_of_ne s.waiters heq).symm.trans h⟩

theorem lookup_forget {correlation correlation' : String} {w : ReplyWaiter}
    (h : (s.forget correlation).waiters.lookup correlation' = some w) :
    correlation' ≠ correlation ∧ s.waiters.lookup correlation' = some w := by
  by_cases heq : correlation' = correlation
  · rw [heq] at h
    cases (Finmap.lookup_erase correlation s.waiters).symm.trans h
  · exact ⟨heq, (Finmap.lookup_erase_ne heq).symm.trans h⟩

theorem take_frame (s : ReplyHub) (correlation : String) (w : ReplyWaiter) (reply : Reply) :
    (s.take correlation w reply).tickets = s.tickets ∧ (s.take correlation w reply).made = s.made ∧
      (s.take correlation w reply).sending = s.sending := by
  unfold ReplyHub.take
  split
  · exact ⟨rfl, rfl, rfl⟩
  · exact ⟨rfl, rfl, rfl⟩

/-- Taking the sender of a waiter that is kept like its ticket. -/
theorem take_matches {correlation : String} {w : ReplyWaiter} {reply : Reply} (howner : s.tickets w.owner = some ticket)
    (hmatches : Matches ticket correlation w) :
    (∀ w', (s.take correlation w reply).waiters.lookup correlation = some w' →
      w'.owner = w.owner ∧ Matches ticket correlation w') ∧
    (∀ correlation' w', correlation' ≠ correlation → (s.take correlation w reply).waiters.lookup correlation' = some w' →
      s.waiters.lookup correlation' = some w') ∧
    ∀ x ∈ (s.take correlation w reply).taken, x ∈ s.taken ∨ x = ⟨correlation, w.owner, reply⟩ := by
  unfold ReplyHub.take
  split
  · rename_i t hsender
    refine ⟨fun w' hw' => ?_, fun correlation' w' hne hw' => ?_, fun x hx => ?_⟩
    · rcases lookup_setWaiter hw' with ⟨-, rfl⟩ | ⟨hne, -⟩
      · exact ⟨rfl, hmatches.live, hmatches.correlation, hmatches.expected, hmatches.request, nofun, hmatches.pending⟩
      · exact absurd rfl hne
    · rcases lookup_setWaiter hw' with ⟨heq, -⟩ | ⟨-, hold⟩
      · exact absurd heq hne
      · exact hold
    · rcases List.mem_append.1 hx with hold | hnew
      · exact .inl hold
      · obtain rfl := List.mem_singleton.1 hnew
        rw [hmatches.sender t hsender]
        exact .inr rfl
  · refine ⟨fun w' hw' => ?_, fun correlation' w' hne hw' => ?_, fun x hx => .inl hx⟩
    · rcases lookup_setWaiter hw' with ⟨-, rfl⟩ | ⟨hne, -⟩
      · exact ⟨rfl, hmatches⟩
      · exact absurd rfl hne
    · rcases lookup_setWaiter hw' with ⟨heq, -⟩ | ⟨-, hold⟩
      · exact absurd heq hne
      · exact hold

/-! ## One lemma per action -/

/-- An action that leaves the tickets. -/
theorem HubInv.settle (h : HubInv s) (htickets : s'.tickets = s.tickets) (hmade : s'.made = s.made)
    (hwaiters : ∀ correlation w, s'.waiters.lookup correlation = some w →
      ∃ ticket, s.tickets w.owner = some ticket ∧ Matches ticket correlation w)
    (htaken : ∀ x ∈ s'.taken, x ∈ s.taken ∨
      (∃ ticket, s.tickets x.ticket = some ticket ∧ ticket.live = true ∧ ticket.correlation = x.correlation ∧
        ticket.request.isSome = true ∧ ticket.Answered x.reply))
    (hsending : ∀ x ∈ s'.sending, x ∈ s.sending ∨ x ∈ s.taken) : HubInv s' := by
  refine h.evolve hmade (fun u new hnew => ?_) (fun u old hold => ?_) ?_ ?_ hsending fun u new hnew reply hreply => ?_
  · exact ⟨new, htickets ▸ hnew, Evolves.refl new⟩
  · exact ⟨old, htickets.symm ▸ hold, Evolves.refl old⟩
  · rw [htickets]
    exact hwaiters
  · rw [htickets]
    exact htaken
  · exact .inl ⟨new, htickets ▸ hnew, hreply⟩

theorem new_hubInv : HubInv .new := by
  have hnone : ∀ t ticket, ReplyHub.new.tickets t ≠ some ticket := by simp [ReplyHub.new]
  refine ⟨fun correlation w hw => ?_, fun t _ ticket _ ht => (hnone t ticket ht).elim, fun t ticket ht => (hnone t ticket ht).elim,
    by simp [ReplyHub.new], by simp [ReplyHub.new], fun t ticket _ ht => (hnone t ticket ht).elim⟩
  cases (Finmap.lookup_empty correlation).symm.trans hw

theorem subscribe_hubInv (h : HubInv s) {correlation : String} (expected : ExpectedReply) (expectedSigner : Option String)
    (hlive : ∀ t ticket, s.tickets t = some ticket → ticket.live = true → ticket.correlation ≠ correlation)
    (htaken : ∀ completion ∈ s.taken, completion.correlation ≠ correlation) :
    HubInv (s.subscribe correlation expected expectedSigner) := by
  have hself : (s.subscribe correlation expected expectedSigner).tickets s.made =
      some ⟨correlation, expected, none, true, none⟩ := by simp [ReplyHub.subscribe, ReplyHub.setWaiter]
  have hothers : ∀ u, u ≠ s.made → (s.subscribe correlation expected expectedSigner).tickets u = s.tickets u :=
    fun u hne => setTicket_of_ne _ hne _
  have hold : ∀ u old, s.tickets u = some old → (s.subscribe correlation expected expectedSigner).tickets u = some old :=
    fun u old hu => (hothers u (h.made u old hu).ne).trans hu
  have hcases : ∀ u new, (s.subscribe correlation expected expectedSigner).tickets u = some new →
      (u = s.made ∧ new = ⟨correlation, expected, none, true, none⟩) ∨ s.tickets u = some new := by
    intro u new hu
    by_cases heq : u = s.made
    · rw [heq, hself] at hu
      exact .inl ⟨heq, (Option.some.inj hu).symm⟩
    · exact .inr ((hothers u heq).symm.trans hu)
  have hkeep : ∀ x : Completion, (∃ ticket, s.tickets x.ticket = some ticket ∧ ticket.request.isSome = true ∧ ticket.Answered x.reply) →
      ∃ ticket, (s.subscribe correlation expected expectedSigner).tickets x.ticket = some ticket ∧
        ticket.request.isSome = true ∧ ticket.Answered x.reply := by
    rintro x ⟨ticket, hticket, hanswered⟩
    exact ⟨ticket, hold _ _ hticket, hanswered⟩
  refine ⟨fun correlation' w hw => ?_, fun t u ticket ticket' ht hu hlive' hlive'' hsame => ?_, fun u new hu => ?_,
    fun x hx => ⟨hkeep x (h.taken x hx).1, fun u new hu hlive' hcorrelation => ?_⟩, fun x hx => hkeep x (h.sending x hx),
    fun u new reply hu hreply => ?_⟩
  · rcases lookup_setWaiter hw with ⟨rfl, rfl⟩ | ⟨-, hw⟩
    · refine ⟨_, hself, rfl, rfl, rfl, rfl, ?_, ?_⟩
      · simp
      · simp
    · obtain ⟨ticket, howner, hmatches⟩ := h.waiters correlation' w hw
      exact ⟨ticket, hold _ _ howner, hmatches⟩
  · rcases hcases t ticket ht with ⟨rfl, rfl⟩ | ht <;> rcases hcases u ticket' hu with ⟨rfl, rfl⟩ | hu
    · rfl
    · exact absurd hsame.symm (hlive u ticket' hu hlive'')
    · exact absurd hsame (hlive t ticket ht hlive')
    · exact h.unique t u ticket ticket' ht hu hlive' hlive'' hsame
  · rcases hcases u new hu with ⟨rfl, -⟩ | hu
    · exact Nat.lt_succ_self _
    · exact (h.made u new hu).trans (Nat.lt_succ_self _)
  · rcases hcases u new hu with ⟨-, rfl⟩ | hu
    · exact absurd hcorrelation.symm (htaken x hx)
    · exact (h.taken x hx).2 u new hu hlive' hcorrelation
  · rcases hcases u new hu with ⟨-, rfl⟩ | hu
    · cases hreply
    · exact h.answered u new reply hu hreply

theorem dispatch_hubInv (h : HubInv s) (verifier : Option (ReplyRecord → Option String)) (record : ReplyRecord) :
    HubInv (s.dispatch verifier record) := by
  unfold ReplyHub.dispatch
  split
  · exact h
  · rename_i correlation _
    split
    · exact h
    · rename_i w hw
      obtain ⟨ticket, howner, hmatches⟩ := h.waiters correlation w hw
      split
      · exact h
      · rename_i verified _
        extract_lets reply kept
        split
        · rename_i haccepts
          rw [hmatches.expected] at haccepts
          split
          · -- Not armed yet: the reply waits with the others.
            have hkept : ∀ old ∈ kept, old ∈ w.pending := by
              unfold kept
              split
              · exact fun old hold => List.mem_of_mem_tail hold
              · exact fun old hold => hold
            refine h.settle rfl rfl (fun correlation' w' hw' => ?_) (fun x hx => .inl hx) (fun x hx => .inl hx)
            rcases lookup_setWaiter hw' with ⟨rfl, rfl⟩ | ⟨-, hold⟩
            · refine ⟨ticket, howner, hmatches.live, hmatches.correlation, hmatches.expected, hmatches.request,
                hmatches.sender, fun old hold => ?_⟩
              rcases List.mem_append.1 hold with hpending | hnew
              · exact hmatches.pending old (hkept old hpending)
              · rw [List.mem_singleton.1 hnew]
                exact haccepts
            · exact h.waiters correlation' w' hold
          · rename_i request hrequest
            split
            · exact h
            · rename_i hother
              obtain ⟨hself, hothers, htaken⟩ := @take_matches s ticket correlation w reply howner hmatches
              obtain ⟨htickets, hmade, hsending⟩ := take_frame s correlation w reply
              refine h.settle htickets hmade (fun correlation' w' hw' => ?_) (fun x hx => ?_) (fun x hx => .inl (hsending ▸ hx))
              · by_cases heq : correlation' = correlation
                · rw [heq] at hw' ⊢
                  obtain ⟨hsame, hmatches'⟩ := hself w' hw'
                  exact ⟨ticket, hsame ▸ howner, hmatches'⟩
                · exact h.waiters correlation' w' (hothers correlation' w' heq hw')
              · rcases htaken x hx with hold | rfl
                · exact .inl hold
                · rw [hmatches.request] at hrequest
                  refine .inr ⟨ticket, howner, hmatches.live, hmatches.correlation, by simp [hrequest], haccepts, ?_⟩
                  intro address haddress hid
                  rw [hrequest, Option.some.injEq] at haddress
                  rw [haddress, ← hid] at hother
                  exact hother rfl
        · exact h

/-- Only the ticket's own waiter has its correlation. -/
theorem HubInv.owner_of_live (h : HubInv s) (hticket : s.tickets t = some ticket) (hlive : ticket.live = true)
    {w : ReplyWaiter} (hw : s.waiters.lookup ticket.correlation = some w) : w.owner = t := by
  obtain ⟨ticket', howner, hmatches⟩ := h.waiters _ w hw
  exact h.unique w.owner t ticket' ticket howner hticket hmatches.live hlive hmatches.correlation

/-- A waiter of another correlation is another ticket's. -/
theorem HubInv.owner_ne (h : HubInv s) (hticket : s.tickets t = some ticket) {correlation : String} {w : ReplyWaiter}
    (hw : s.waiters.lookup correlation = some w) (hne : correlation ≠ ticket.correlation) : w.owner ≠ t := by
  intro hsame
  obtain ⟨old, howner, hmatches⟩ := h.waiters correlation w hw
  rw [hsame, hticket] at howner
  cases howner
  exact hne hmatches.correlation.symm

theorem forget_hubInv (h : HubInv s) {x : Completion} (hx : x ∈ s.taken) :
    HubInv { s.forget x.correlation with taken := s.taken.erase x, sending := s.sending ++ [x] } := by
  refine h.settle rfl rfl (fun correlation w hw => ?_) (fun y hy => .inl (List.mem_of_mem_erase hy)) (fun y hy => ?_)
  · exact h.waiters correlation w (lookup_forget hw).2
  · rcases List.mem_append.1 hy with hold | hnew
    · exact .inl hold
    · rw [List.mem_singleton.1 hnew]
      exact .inr hx

/-- Changing one ticket, with the waiters of the others. -/
theorem HubInv.change (h : HubInv s) (hticket : s.tickets t = some ticket) (hevolves : Evolves ticket ticket')
    (htickets : s'.tickets = (s.setTicket t ticket').tickets) (hmade : s'.made = s.made)
    (hwaiters : ∀ correlation w, s'.waiters.lookup correlation = some w →
      (w.owner = t ∧ Matches ticket' correlation w) ∨ (w.owner ≠ t ∧ s.waiters.lookup correlation = some w))
    (htaken : ∀ x ∈ s'.taken, x ∈ s.taken ∨ x.ticket = t ∧ ticket'.live = true ∧ ticket'.correlation = x.correlation ∧
        ticket'.request.isSome = true ∧ ticket'.Answered x.reply)
    (hsending : ∀ x ∈ s'.sending, x ∈ s.sending)
    (hreceived : ∀ reply, ticket'.received = some reply →
      ticket.received = some reply ∨ ∃ x ∈ s.sending, x.ticket = t ∧ x.reply = reply) : HubInv s' := by
  have hself : s'.tickets t = some ticket' := by rw [htickets, setTicket_self]
  refine h.evolve hmade ?_ ?_ (fun correlation w hw => ?_) (fun x hx => ?_) (fun x hx => .inl (hsending x hx)) ?_
  · rw [htickets]
    exact setTicket_evolves hticket hevolves
  · rw [htickets]
    exact setTicket_later hticket hevolves
  · rcases hwaiters correlation w hw with ⟨rfl, hmatches⟩ | ⟨hne, hold⟩
    · exact ⟨ticket', hself, hmatches⟩
    · obtain ⟨old, howner, hmatches⟩ := h.waiters correlation w hold
      exact ⟨old, by rw [htickets, setTicket_of_ne s hne, howner], hmatches⟩
  · rcases htaken x hx with hold | ⟨hsame, hnew⟩
    · exact .inl hold
    · exact .inr ⟨ticket', hsame ▸ hself, hnew⟩
  · intro u new hnew reply hreply
    by_cases heq : u = t
    · rw [heq, hself] at hnew
      cases hnew
      rcases hreceived reply hreply with hold | ⟨x, hx, hsent, hsame⟩
      · exact .inl ⟨ticket, heq ▸ hticket, hold⟩
      · exact .inr ⟨x, hx, hsent.trans heq.symm, hsame⟩
    · rw [htickets, setTicket_of_ne s heq] at hnew
      exact .inl ⟨new, hnew, hreply⟩

theorem drop_hubInv (h : HubInv s) (hticket : s.tickets t = some ticket) :
    HubInv ((s.setTicket t { ticket with live := false }).forget ticket.correlation) := by
  have hevolves : Evolves ticket { ticket with live := false } := ⟨rfl, rfl, fun _ => rfl, by simp⟩
  refine h.change hticket hevolves rfl rfl (fun correlation w hw => ?_) (fun x hx => .inl hx)
    (fun x hx => hx) (fun reply hreply => .inl hreply)
  obtain ⟨hne, hold⟩ := lookup_forget hw
  exact .inr ⟨h.owner_ne hticket hold hne, hold⟩

theorem send_hubInv (h : HubInv s) {x : Completion} (hx : x ∈ s.sending) (hticket : s.tickets x.ticket = some ticket) :
    HubInv ({ s with sending := s.sending.erase x }.setTicket x.ticket { ticket with received := some x.reply }) := by
  have hevolves : Evolves ticket { ticket with received := some x.reply } := ⟨rfl, rfl, fun _ => rfl, fun hlive => hlive⟩
  refine h.change hticket hevolves rfl rfl (fun correlation w hw => ?_)
    (fun y hy => .inl hy) (fun y hy => List.mem_of_mem_erase hy) (fun reply hreply => ?_)
  · by_cases heq : w.owner = x.ticket
    · obtain ⟨old, howner, hmatches⟩ := h.waiters correlation w hw
      rw [heq, hticket] at howner
      cases howner
      exact .inl ⟨heq, hmatches.live, hmatches.correlation, hmatches.expected, hmatches.request, hmatches.sender,
        hmatches.pending⟩
    · exact .inr ⟨heq, hw⟩
  · exact .inr ⟨x, hx, rfl, Option.some.inj hreply⟩

theorem arm_hubInv (h : HubInv s) (hticket : s.tickets t = some ticket) (hlive : ticket.live = true)
    (hunarmed : ticket.request = none) (request : Option MessageId) :
    HubInv ((s.setTicket t { ticket with request := some request }).armWaiter ticket.correlation request) := by
  have hevolves : Evolves ticket { ticket with request := some request } :=
    ⟨rfl, rfl, by simp [hunarmed], fun hlive => hlive⟩
  unfold ReplyHub.armWaiter
  split
  · rename_i hnone
    refine h.change hticket hevolves rfl rfl (fun correlation w hw => .inr ⟨?_, hw⟩) (fun x hx => .inl hx) (fun x hx => hx)
      (fun reply hreply => .inl hreply)
    refine h.owner_ne hticket hw fun heq => ?_
    rw [heq] at hw
    cases hnone.symm.trans hw
  · rename_i w hw
    have hw : s.waiters.lookup ticket.correlation = some w := hw
    have howner := h.owner_of_live hticket hlive hw
    obtain ⟨old, hold, hmatches⟩ := h.waiters _ w hw
    rw [howner, hticket] at hold
    cases hold
    extract_lets armed
    have harmed : Matches { ticket with request := some request } ticket.correlation armed :=
      ⟨hlive, rfl, hmatches.expected, rfl, hmatches.sender, hmatches.pending⟩
    split
    · refine h.change hticket hevolves rfl rfl (fun correlation w' hw' => ?_) (fun x hx => .inl hx) (fun x hx => hx)
        (fun reply hreply => .inl hreply)
      rcases lookup_setWaiter hw' with ⟨rfl, rfl⟩ | ⟨hne, hold⟩
      · exact .inl ⟨howner, harmed⟩
      · exact .inr ⟨h.owner_ne hticket hold hne, hold⟩
    · rename_i reply hreply
      have hpending : Matches { ticket with request := some request } ticket.correlation
          { armed with pending := w.pending.erase reply } :=
        ⟨hlive, rfl, hmatches.expected, rfl, hmatches.sender, fun other hother => hmatches.pending other (List.mem_of_mem_erase hother)⟩
      have hself : (s.setTicket t { ticket with request := some request }).tickets armed.owner =
          some { ticket with request := some request } := by
        rw [show armed.owner = t from howner, setTicket_self]
      obtain ⟨hown, hrest, htaken⟩ := @take_matches (s.setTicket t { ticket with request := some request }) _
        ticket.correlation { armed with pending := w.pending.erase reply } reply hself hpending
      obtain ⟨htickets, hmade, hsending⟩ := take_frame (s.setTicket t { ticket with request := some request })
        ticket.correlation { armed with pending := w.pending.erase reply } reply
      refine h.change hticket hevolves htickets hmade (fun correlation w' hw' => ?_) (fun x hx => ?_)
        (fun x hx => by rw [hsending] at hx; exact hx) (fun reply hreply => .inl hreply)
      · by_cases heq : correlation = ticket.correlation
        · rw [heq] at hw' ⊢
          obtain ⟨hsame, hmatches'⟩ := hown w' hw'
          exact .inl ⟨hsame.trans howner, hmatches'⟩
        · have hold := hrest correlation w' heq hw'
          exact .inr ⟨h.owner_ne hticket hold heq, hold⟩
      · rcases htaken x hx with hold | rfl
        · exact .inl hold
        · refine .inr ⟨howner, hlive, rfl, rfl, hmatches.pending reply (List.mem_of_find?_eq_some hreply), ?_⟩
          intro address haddress hid
          have hother := List.find?_some hreply
          rw [decide_eq_true_eq] at hother
          exact hother ((Option.some.inj haddress).trans (congrArg some hid.symm))

variable {verifier : Option (ReplyRecord → Option String)} {a : ReplyAction}

theorem step_hubInv (h : HubInv s) (hstep : s.FreshStep verifier a s') : HubInv s' := by
  obtain ⟨hfresh, hstep⟩ := hstep
  unfold ReplyHub.Step at hstep
  cases a with
  | subscribe correlation expected expectedSigner =>
    cases hstep
    exact subscribe_hubInv h expected expectedSigner hfresh.1 hfresh.2
  | arm t request =>
    simp only [ReplyHub.next] at hstep
    split at hstep
    · rename_i ticket hticket
      split at hstep
      · rename_i hready
        cases hstep
        exact arm_hubInv h hticket hready.1 hready.2 request
      · cases hstep
    · cases hstep
  | dispatch record =>
    cases hstep
    exact dispatch_hubInv h verifier record
  | forget completion =>
    simp only [ReplyHub.next] at hstep
    split at hstep
    · rename_i htaken
      cases hstep
      exact forget_hubInv h htaken
    · cases hstep
  | send completion =>
    simp only [ReplyHub.next] at hstep
    have hunsent : HubInv { s with sending := s.sending.erase completion } :=
      h.settle rfl rfl h.waiters (fun x hx => .inl hx) fun x hx => .inl (List.mem_of_mem_erase hx)
    split at hstep
    · rename_i hsending
      split at hstep
      · rename_i ticket hticket
        split at hstep
        · cases hstep
          exact send_hubInv h hsending hticket
        · cases hstep
          exact hunsent
      · cases hstep
        exact hunsent
    · cases hstep
  | drop t =>
    simp only [ReplyHub.next] at hstep
    split at hstep
    · rename_i ticket hticket
      split at hstep
      · cases hstep
        exact drop_hubInv h hticket
      · cases hstep
    · cases hstep

/-- A registration stays while its ticket and its waiter do. -/
theorem ReplyHub.Registered.keep {u : Nat} {request : Option (Option MessageId)} (h : s.Registered u request)
    (hticket : s'.tickets u = s.tickets u)
    (hwaiter : ∀ ticket, s.tickets u = some ticket → ticket.live = true →
      s'.waiters.lookup ticket.correlation = s.waiters.lookup ticket.correlation) : s'.Registered u request := by
  obtain ⟨ticket, w, hu, hlive, hw, howner, hrequest⟩ := h
  exact ⟨ticket, w, hticket.trans hu, hlive, (hwaiter ticket hu hlive).trans hw, howner, hrequest⟩

theorem lookup_armWaiter (s : ReplyHub) {correlation correlation' : String} (hne : correlation' ≠ correlation)
    (request : Option MessageId) : (s.armWaiter correlation request).waiters.lookup correlation' = s.waiters.lookup correlation' ∧
      (s.armWaiter correlation request).tickets = s.tickets := by
  unfold ReplyHub.armWaiter
  split
  · exact ⟨rfl, rfl⟩
  · dsimp only
    split
    · exact ⟨Finmap.lookup_insert_of_ne _ hne, rfl⟩
    · unfold ReplyHub.take
      split
      · exact ⟨Finmap.lookup_insert_of_ne _ hne, rfl⟩
      · exact ⟨Finmap.lookup_insert_of_ne _ hne, rfl⟩

theorem step_isolated (h : HubInv s) (hstep : s.Step verifier a s') : Isolated s a s' := by
  unfold ReplyHub.Step at hstep
  intro t hactor u hne request hregistered
  cases a with
  | subscribe | dispatch => cases hactor
  | arm t' address =>
    cases hactor
    simp only [ReplyHub.next] at hstep
    split at hstep
    · rename_i ticket hticket
      split at hstep
      · rename_i hready
        cases hstep
        -- No other live ticket has the correlation.
        have hother : ∀ old, s.tickets u = some old → old.live = true → old.correlation ≠ ticket.correlation :=
          fun old hold hlive hsame => hne (h.unique u t old ticket hold hticket hlive hready.1 hsame)
        obtain ⟨old, -, hold, hlive, -⟩ := id hregistered
        obtain ⟨-, htickets⟩ := lookup_armWaiter (s.setTicket t { ticket with request := some address })
          (hother old hold hlive) address
        refine hregistered.keep (by rw [htickets, setTicket_of_ne s hne]) fun other hmem hlive' => ?_
        exact (lookup_armWaiter (s.setTicket t { ticket with request := some address }) (hother other hmem hlive') address).1
      · cases hstep
    · cases hstep
  | forget completion =>
    cases hactor
    simp only [ReplyHub.next] at hstep
    split at hstep
    · rename_i htaken
      cases hstep
      refine hregistered.keep rfl fun old hold hlive => Finmap.lookup_erase_ne fun hsame => hne ?_
      exact (h.taken completion htaken).2 u old hold hlive hsame
    · cases hstep
  | send completion =>
    cases hactor
    simp only [ReplyHub.next] at hstep
    split at hstep
    · split at hstep
      · split at hstep
        · cases hstep
          exact hregistered.keep (setTicket_of_ne _ hne _) fun _ _ _ => rfl
        · cases hstep
          exact hregistered.keep rfl fun _ _ _ => rfl
      · cases hstep
        exact hregistered.keep rfl fun _ _ _ => rfl
    · cases hstep
  | drop t' =>
    cases hactor
    simp only [ReplyHub.next] at hstep
    split at hstep
    · rename_i ticket hticket
      split at hstep
      · rename_i hlive
        cases hstep
        refine hregistered.keep (setTicket_of_ne s hne _) fun old hold hlive' => Finmap.lookup_erase_ne fun hsame => hne ?_
        exact h.unique u t old ticket hold hticket hlive' hlive hsame
      · cases hstep
    · cases hstep

end

/-- While no subscription takes a correlation in use, no ticket's drop, timeout
or completion takes another's registration, arming one sets no other's address,
and every ticket is completed by a record it accepts and that is not its
request. -/
theorem tickets_isolated {verifier : Option (ReplyRecord → Option String)} {actions : List ReplyAction} {s : ReplyHub}
    (h : Lib.Run (ReplyHub.FreshStep verifier) .new actions s) :
    AllAnswered s ∧ ∀ a s', s.Step verifier a s' → Isolated s a s' := by
  have hinv : HubInv s := h.inv _ new_hubInv fun _ _ _ hinv hstep => step_hubInv hinv hstep
  exact ⟨fun t ticket reply ht hreply => (hinv.answered t ticket reply ht hreply).2, fun a s' hstep => step_isolated hinv hstep⟩

/-! ## Two requests with one correlation -/

def anyReply : ExpectedReply := ⟨1, none⟩

def answerRecord (offset : Nat) : ReplyRecord :=
  ⟨⟨⟨1, none, some "responder", none, none, none, some "job-7", none⟩, some ⟨.response, none, none, none⟩⟩, ⟨0, offset⟩, []⟩

def answerReply (offset : Nat) : Reply := ⟨(answerRecord offset).message, (answerRecord offset).id, [], none⟩

/-- The completion of the first ticket. -/
def answered : Completion := ⟨"job-7", 0, answerReply 5⟩

/-- The first request is armed and answered, and its ticket is dropped. -/
def answeredOnce : List ReplyAction :=
  [.arm 0 (some ⟨0, 4⟩), .dispatch (answerRecord 5), .forget answered, .send answered, .drop 0]

/-- Only a subscription has a condition. -/
theorem freshRun {verifier : Option (ReplyRecord → Option String)} {init s : ReplyHub} {actions : List ReplyAction}
    (h : Lib.Run (ReplyHub.Step verifier) init actions s) (hfresh : ∀ a ∈ actions, ∀ s, a.Fresh s) :
    Lib.Run (ReplyHub.FreshStep verifier) init actions s := by
  induction h with
  | nil => exact .nil
  | snoc _ hstep ih =>
    refine (ih fun a ha => hfresh a (List.mem_append_left _ ha)).snoc ⟨?_, hstep⟩
    exact hfresh _ (List.mem_append_right _ List.mem_cons_self) _

theorem madeAgain_isolated : ∃ s, Lib.Run (ReplyHub.FreshStep none) .new
      ([.subscribe "job-7" anyReply none] ++ answeredOnce ++ [.subscribe "job-7" anyReply none]) s ∧
    (s.tickets 0).bind (·.received) = some (answerReply 5) ∧ AllAnswered s ∧ ∀ a s', s.Step none a s' → Isolated s a s' := by
  have hfirst : Lib.Run (ReplyHub.FreshStep none) .new ([] ++ [.subscribe "job-7" anyReply none])
      (ReplyHub.new.subscribe "job-7" anyReply none) := .snoc .nil ⟨⟨by simp [ReplyHub.new], by simp [ReplyHub.new]⟩, rfl⟩
  have honce : (answeredOnce.foldlM (ReplyHub.next none) (ReplyHub.new.subscribe "job-7" anyReply none)).map
      (fun s => (s.made, s.taken, (s.tickets 0).map (·.live), (s.tickets 0).bind (·.received))) =
      some (1, [], some false, some (answerReply 5)) := by decide +kernel
  obtain ⟨s, hs, hstate⟩ := Option.map_eq_some_iff.1 honce
  simp only [Prod.mk.injEq, Option.map_eq_some_iff] at hstate
  obtain ⟨hmade, htaken, ⟨ticket, hticket, hdropped⟩, hreceived⟩ := hstate
  have hrun := Lib.Run.append_iff.2 ⟨_, hfirst, freshRun (Lib.Run.foldlM_iff.2 hs) (by simp [answeredOnce, ReplyAction.Fresh])⟩
  have hinv : HubInv s := hrun.inv _ new_hubInv fun _ _ _ hinv hstep => step_hubInv hinv hstep
  have hagain : Lib.Run (ReplyHub.FreshStep none) .new
      ([.subscribe "job-7" anyReply none] ++ answeredOnce ++ [.subscribe "job-7" anyReply none])
      (s.subscribe "job-7" anyReply none) := by
    refine hrun.snoc ⟨⟨fun t other ht hlive => ?_, by simp [htaken]⟩, rfl⟩
    -- The only ticket is the one that was dropped.
    have hlt := hinv.made t other ht
    obtain rfl : t = 0 := by omega
    rw [hticket] at ht
    cases ht
    rw [hdropped] at hlive
    cases hlive
  refine ⟨_, hagain, ?_, tickets_isolated hagain⟩
  have hother : 0 ≠ s.made := by omega
  refine Eq.trans ?_ hreceived
  exact congrArg (fun ticket => ticket.bind (·.received)) (setTicket_of_ne _ hother _)

/-- Two live tickets share a correlation. -/
def sharedHub : ReplyHub := (ReplyHub.new.subscribe "job-7" anyReply none).subscribe "job-7" anyReply none

/-- Dropping the first takes the waiter of the second, and arming the first sets
the address of the second. -/
theorem shared_correlation_interferes : ∃ s, Lib.Run (ReplyHub.Step none) .new
      [.subscribe "job-7" anyReply none, .subscribe "job-7" anyReply none] s ∧
    (∃ s', s.Step none (.drop 0) s' ∧ ¬Isolated s (.drop 0) s') ∧
    ∃ s', s.Step none (.arm 0 (some ⟨0, 4⟩)) s' ∧ ¬Isolated s (.arm 0 (some ⟨0, 4⟩)) s' := by
  have hrun : Lib.Run (ReplyHub.Step none) .new [.subscribe "job-7" anyReply none, .subscribe "job-7" anyReply none] sharedHub :=
    Lib.Run.foldlM_iff.2 rfl
  have hregistered : sharedHub.Registered 1 none :=
    ⟨⟨"job-7", anyReply, none, true, none⟩, ⟨1, some 1, none, [], anyReply, none⟩, by decide +kernel, rfl, by decide +kernel, rfl, rfl⟩
  refine ⟨sharedHub, hrun, ⟨_, rfl, fun hisolated => ?_⟩, _, rfl, fun hisolated => ?_⟩
  · obtain ⟨ticket, w, hticket, -, hw, -⟩ := hisolated 0 rfl 1 (by decide) none hregistered
    cases hticket
    cases hw
  · obtain ⟨ticket, w, hticket, -, hw, -, hrequest⟩ := hisolated 0 rfl 1 (by decide) none hregistered
    cases hticket
    cases hw
    cases hrequest

end LaserSdk.Agent
