import Mathlib.Data.List.Infix
import Mathlib.Data.List.TakeWhile
import SandboxWorker.Proofs.Text.Decimal
import SandboxWorker.Queue.Server
/-! A list server that is sent the commands of an operation does what the broker does, and shows
nothing of it before the last command is there. -/
namespace SandboxWorker.Queue

namespace Server

@[ext] theorem ext {s t : Server} (h : ∀ key, s.lists key = t.lists key) : s = t := by
  cases s; cases t
  simp only [mk.injEq]
  exact funext h

def of (b : Broker) : Server where
  lists key := if b.list key = [] then none else some (b.list key)
  kept key := by
    split
    · exact fun h => nomatch h
    · simpa

def view (s : Server) : Broker := ⟨s.list⟩

@[simp] theorem list_of (b : Broker) (key : String) : (of b).list key = b.list key := by
  simp only [list, of]
  split <;> simp_all

theorem of_view (s : Server) : of s.view = s := by
  ext1 key
  have hkept := s.kept key
  obtain h | ⟨items, h⟩ := Option.eq_none_or_eq_some (s.lists key)
  · simp [of, view, list, h]
  · have hitems : items ≠ [] := fun hnil => hkept (h.trans (congrArg some hnil))
    simp [of, view, list, h, hitems]

@[simp] theorem put_of (b : Broker) (key : String) (items : List String) :
    (of b).put key items = of (b.put key items) := by
  ext1 k
  by_cases h : k = key
  · subst h
    simp only [put, of, if_true, Broker.list_put_self]
  · simp only [put, of, if_neg h, Broker.list_put_of_ne b items h]

theorem pop?_right (items : List String) :
    Side.right.pop? items = items.getLast?.map fun payload => (payload, items.dropLast) := by
  induction items using List.reverseRecOn with
  | nil => rfl
  | append_singleton items payload _ => simp [Side.pop?]

theorem remove_one (payload : String) (items : List String) :
    remove 1 payload items = items.erase payload := by
  have hone : without payload 1 items = items.erase payload := by
    induction items with
    | nil => rfl
    | cons item items ih =>
      by_cases h : item = payload
      · simp [without, h]
      · simp [without, h, ih]
  exact hone

theorem move?_of (b : Broker) (queue processing : String) :
    (of b).move? queue processing .right .left =
      (b.claim? queue processing).map fun (payload, b) => (payload, of b) := by
  simp only [move?, pop?_right, list_of, Broker.claim?, Option.map_map]
  refine congrArg (Option.map · _) (funext fun payload => ?_)
  simp only [Function.comp_apply, put_of, list_of]
  rfl

/-! ### Waiting -/

def isZeroChar (c : Char) : Bool := c = '0' || c = '.'

theorem all_isZeroChar {ds : List Char} (hds : ∀ c ∈ ds, Decimal.isDigit c = true) :
    ds.all isZeroChar = (Decimal.value ds == 0) := by
  have hzero : ∀ c ∈ ds, isZeroChar c = true ↔ c = '0' := by
    intro c hc
    have hpoint : c ≠ '.' := by
      rintro rfl
      exact absurd (hds _ hc) (by decide)
    simp [isZeroChar, hpoint]
  rw [Bool.eq_iff_iff, List.all_eq_true, beq_iff_eq, Decimal.value_eq_zero hds]
  exact forall₂_congr hzero

/-- Zeros at the end of a fraction are left out, but for one if there is nothing else. -/
theorem all_isZeroChar_trimmed {ds kept : List Char} (hds : ∀ c ∈ ds, Decimal.isDigit c = true)
    (hkept : kept = (ds.reverse.dropWhile (· = '0')).reverse) :
    (if kept = [] then ['0'] else kept).all isZeroChar = (Decimal.value ds == 0) := by
  rw [← all_isZeroChar hds]
  cases hdrop : ds.reverse.dropWhile (· = '0') with
  | nil =>
    rw [hdrop] at hkept
    have hzeros : ∀ c ∈ ds, c = '0' := by simpa using List.dropWhile_eq_nil_iff.mp hdrop
    have hall : ds.all isZeroChar = true :=
      List.all_eq_true.mpr fun c hc => by rw [hzeros c hc]; rfl
    rw [hall, hkept]
    rfl
  | cons c rest =>
    rw [hdrop] at hkept
    have hmem : c ∈ ds := List.mem_reverse.mp
      ((List.dropWhile_sublist _).subset (hdrop ▸ List.mem_cons_self))
    have hne : c ≠ '0' := by simpa [hdrop] using List.head?_dropWhile_not (· = '0') ds.reverse
    have hpoint : c ≠ '.' := by
      rintro rfl
      exact absurd (hds _ hmem) (by decide)
    have hc : ¬ isZeroChar c = true := by simp [isZeroChar, hne, hpoint]
    have hnot {cs : List Char} (h : c ∈ cs) : cs.all isZeroChar = false :=
      Bool.eq_false_iff.mpr fun hall => hc (List.all_eq_true.mp hall c h)
    rw [hnot hmem, if_neg (by simp [hkept]), hnot (by simp [hkept])]

theorem isZero_seconds (ms : Nat) : isZero (Command.seconds ms) = (ms == 0) := by
  have hwhole := all_isZeroChar fun c => Decimal.isDigit_of_mem_digits (n := ms / 1000) (c := c)
  have hdigits : ∀ c ∈ Decimal.fixed 3 (ms % 1000), Decimal.isDigit c = true :=
    fun _ => Decimal.isDigit_of_mem_fixed
  have hfraction := all_isZeroChar_trimmed hdigits rfl
  rw [Decimal.value_digits] at hwhole
  rw [Decimal.value_fixed_of_lt (Nat.mod_lt _ (by decide))] at hfraction
  rw [isZero, Command.seconds, String.toList_ofList]
  change List.all _ isZeroChar = _
  rw [List.all_append, List.all_cons, hwhole]
  simp only [show isZeroChar '.' = true by decide, Bool.true_and]
  refine (congrArg _ hfraction).trans ?_
  rw [Bool.eq_iff_iff]
  simp
  omega

/-! ### Single commands -/

theorem run_push (b : Broker) (mayWait : Bool) (key payload : String) :
    (∃ n, (of b).run mayWait ["LPUSH", key, payload] =
      some (.integer n, of (b.put key (payload :: b.list key)))) ∧
    ∃ n, (of b).run mayWait ["RPUSH", key, payload] =
      some (.integer n, of (b.put key (b.list key ++ [payload]))) := by
  simp [run, push, Side.push]

theorem run_remove (b : Broker) (mayWait : Bool) (key payload : String) :
    ∃ n, (of b).run mayWait ["LREM", key, "1", payload] =
      some (.integer n, of (b.put key ((b.list key).erase payload))) := by
  have hcount : Decimal.int64? ['1'] = some 1 := by decide
  have hone : (1 : Int64).toInt = 1 := by decide
  simp [run, removeFrom, hcount, hone, remove_one]

theorem run_move (b : Broker) (mayWait : Bool) (source destination : String) (timeout : Nat) :
    (of b).run mayWait (Command.moveRightToLeft source destination timeout).words =
      match b.claim? source destination with
      | some (payload, b) => some (.element payload, of b)
      | none => if mayWait && timeout == 0 then none else some (.nothing, of b) := by
  simp [run, Command.words, moveOrWait, Side.ofWord?, move?_of, isZero_seconds]
  cases b.claim? source destination <;> rfl

/-- A command that may not wait is replied to, and leaves the lists as it says. -/
theorem run_words (b : Broker) (c : Command) :
    ∃ reply, (of b).run false c.words = some (reply, of (c.run b).2) := by
  cases c with
  | pushLeft key payload => exact ⟨_, (run_push b false key payload).1.choose_spec⟩
  | pushRight key payload => exact ⟨_, (run_push b false key payload).2.choose_spec⟩
  | removeOne key payload => exact ⟨_, (run_remove b false key payload).choose_spec⟩
  | moveRightToLeft source destination timeout =>
    rw [run_move, Command.run, Broker.claim?]
    cases (b.list source).getLast? with
    | none => exact ⟨.nothing, rfl⟩
    | some payload => exact ⟨.element payload, rfl⟩

/-! ### Transactions -/

theorem runAll_words (b : Broker) (commands : List Command) :
    ∃ replies, (of b).runAll (commands.map Command.words) =
      some (replies, of (commands.foldl (fun b c => (c.run b).2) b)) := by
  induction commands generalizing b with
  | nil => exact ⟨[], rfl⟩
  | cons c commands ih =>
    obtain ⟨reply, hreply⟩ := run_words b c
    obtain ⟨replies, hreplies⟩ := ih (c.run b).2
    refine ⟨reply :: replies, ?_⟩
    simp only [List.map_cons, runAll, hreply, hreplies, Option.bind_eq_bind, Option.bind_some]
    rfl

end Server

namespace Connection

theorem serveAll_append (c : Connection) (commands more : List (List String)) :
    c.serveAll (commands ++ more) = do
      let (replies, c) ← c.serveAll commands
      let (others, c) ← c.serveAll more
      return (replies ++ others, c) := by
  induction commands generalizing c with
  | nil => cases h : c.serveAll more <;> simp [serveAll, h]
  | cons words commands ih =>
    rw [List.cons_append, serveAll, serveAll]
    cases c.serve words with
    | none => rfl
    | some served =>
      simp only [Option.bind_eq_bind, Option.bind_some, ih]
      cases served.2.serveAll commands with
      | none => rfl
      | some all => cases h : all.2.serveAll more <;> simp [h]

theorem words_ne_exec (c : Command) : c.words ≠ ["EXEC"] := by
  cases c <;> simp [Command.words]

theorem serveAll_held (s : Server) (held : List (List String)) (commands : List Command) :
    ∃ replies, serveAll ⟨s, some held⟩ (commands.map Command.words) =
      some (replies, ⟨s, some (held ++ commands.map Command.words)⟩) := by
  induction commands generalizing held with
  | nil => exact ⟨[], by simp [serveAll]⟩
  | cons c commands ih =>
    obtain ⟨replies, hreplies⟩ := ih (held ++ [c.words])
    refine ⟨.queued :: replies, ?_⟩
    simp only [List.map_cons, serveAll, serve, if_neg (words_ne_exec c), Option.bind_eq_bind,
      Option.bind_some, hreplies]
    simp

theorem serveAll_transaction (b : Broker) (commands : List Command) :
    ∃ replies others, serveAll ⟨.of b, none⟩
        (["MULTI"] :: commands.map Command.words ++ [["EXEC"]]) =
      some (replies ++ [.all others],
        ⟨.of (commands.foldl (fun b c => (c.run b).2) b), none⟩) := by
  obtain ⟨others, hothers⟩ := Server.runAll_words b commands
  obtain ⟨replies, hreplies⟩ := serveAll_held (.of b) [] commands
  refine ⟨.ok :: replies, others, ?_⟩
  rw [List.cons_append, serveAll, serve]
  simp only [if_true, Option.bind_eq_bind, Option.bind_some, serveAll_append, hreplies, serveAll,
    serve, List.nil_append, hothers]
  rfl

/-- A server that has not got all of a transaction has done nothing of it. -/
theorem serveAll_unfinished (s : Server) {sent : List (List String)} (commands : List Command)
    (h : sent <+: ["MULTI"] :: commands.map Command.words ++ [["EXEC"]])
    (hunfinished : sent ≠ ["MULTI"] :: commands.map Command.words ++ [["EXEC"]]) :
    ∃ replies c, serveAll ⟨s, none⟩ sent = some (replies, c) ∧ c.server = s := by
  obtain hbefore | rfl := (List.prefix_concat_iff.mp h).symm
  swap
  · exact absurd rfl hunfinished
  cases sent with
  | nil => exact ⟨[], _, rfl, rfl⟩
  | cons words sent =>
    obtain ⟨rfl, hrest⟩ := List.cons_prefix_cons.mp hbefore
    obtain ⟨before, -, rfl⟩ := List.prefix_map_iff.mp hrest
    obtain ⟨replies, hreplies⟩ := serveAll_held s [] before
    refine ⟨.ok :: replies, ⟨s, some (before.map Command.words)⟩, ?_, rfl⟩
    simp only [serveAll, serve, if_true, Option.bind_eq_bind, Option.bind_some, hreplies]
    rfl

end Connection

namespace Operation

/-- Whether an operation is the claim of an empty queue with no limit to its time. -/
def waitsForever (b : Broker) : Operation → Bool
  | .claim queue _ timeout => (b.list queue).isEmpty && timeout == 0
  | _ => false

/-- Operations one after the other, and what each of them claims. -/
def runAll (b : Broker) : List Operation → List (Option String) × Broker
  | [] => ([], b)
  | o :: operations =>
    let (claimed, b) := o.run b
    let (more, b) := runAll b operations
    (claimed :: more, b)

theorem perform_transaction {b b' : Broker} {o : Operation} {first second : Command}
    (hcommands : o.commands = [first, second]) (hrun : o.run b = (none, b'))
    (hafter : (second.run (first.run b).2).2 = b') :
    (Server.of b).perform o = some ((o.run b).1, .of (o.run b).2) := by
  obtain ⟨replies, others, hserve⟩ := Connection.serveAll_transaction b [first, second]
  have hsent : o.sent = ["MULTI"] :: [first, second].map Command.words ++ [["EXEC"]] := by
    simp only [sent, hcommands]
  rw [Server.perform, hsent, hserve, hrun, ← hafter]
  simp [Reply.element?]

theorem perform_single (s : Server) {o : Operation} {c : Command} (hcommands : o.commands = [c])
    (hmulti : c.words ≠ ["MULTI"]) :
    s.perform o = (s.run true c.words).map fun (reply, s) => (reply.element?, s) := by
  have hsent : o.sent = [c.words] := by simp only [sent, hcommands]
  simp only [Server.perform, hsent, Connection.serveAll, Connection.serve, if_neg hmulti]
  cases s.run true c.words <;> rfl

theorem perform_of (b : Broker) (o : Operation) :
    (Server.of b).perform o =
      if o.waitsForever b then none else some ((o.run b).1, .of (o.run b).2) := by
  cases o with
  | publish queue payload =>
    obtain ⟨n, hrun⟩ := (Server.run_push b true queue payload).1
    rw [perform_single _ (c := .pushLeft queue payload) rfl (by simp [Command.words]),
      Command.words, hrun]
    rfl
  | settle processing payload =>
    obtain ⟨n, hrun⟩ := Server.run_remove b true processing payload
    rw [perform_single _ (c := .removeOne processing payload) rfl (by simp [Command.words]),
      Command.words, hrun]
    rfl
  | restore queue processing payload => exact perform_transaction rfl rfl rfl
  | bury deadLetter processing payload => exact perform_transaction rfl rfl rfl
  | claim queue processing timeout =>
    rw [perform_single _ (c := .moveRightToLeft queue processing timeout) rfl
      (by simp [Command.words]), Server.run_move, waitsForever, run, Broker.claim?]
    cases hlast : (b.list queue).getLast? with
    | some payload =>
      have hsome : b.list queue ≠ [] := fun hnil => by simp [hnil] at hlast
      simp [hsome, Reply.element?]
    | none =>
      have hnil : b.list queue = [] := List.getLast?_eq_none_iff.mp hlast
      cases timeout <;> simp [hnil, Reply.element?]

theorem runAll_cons (b : Broker) (o : Operation) (operations : List Operation) :
    runAll b (o :: operations) =
      ((o.run b).1 :: (runAll (o.run b).2 operations).1, (runAll (o.run b).2 operations).2) := rfl

theorem length_claimed (b : Broker) (operations : List Operation) :
    (runAll b operations).1.length = operations.length := by
  induction operations generalizing b with
  | nil => rfl
  | cons o operations ih => rw [runAll_cons, List.length_cons, List.length_cons, ih]

/-- A server carries out operations as the broker does, up to the first one at which it waits for
ever. -/
theorem performAll_of (b : Broker) (operations : List Operation) :
    ∃ answered, answered <+: operations ∧
      (Server.of b).performAll operations = ((runAll b answered).1, .of (runAll b answered).2) ∧
      (∀ before o, before ++ [o] <+: answered → o.waitsForever (runAll b before).2 = false) ∧
      (answered = operations ∨
        ∃ o, answered ++ [o] <+: operations ∧ o.waitsForever (runAll b answered).2 = true) := by
  induction operations generalizing b with
  | nil =>
    refine ⟨[], List.prefix_rfl, rfl, fun before o h => ?_, .inl rfl⟩
    exact absurd (List.prefix_nil.mp h) (by simp)
  | cons o operations ih =>
    rw [Server.performAll, perform_of]
    cases hwaits : o.waitsForever b with
    | true =>
      refine ⟨[], List.nil_prefix, rfl, fun before o h => ?_, .inr ⟨o, ?_, hwaits⟩⟩
      · exact absurd (List.prefix_nil.mp h) (by simp)
      · exact List.prefix_append [o] operations
    | false =>
      obtain ⟨answered, hprefix, hperform, hanswered, hend⟩ := ih (o.run b).2
      refine ⟨o :: answered, List.cons_prefix_cons.mpr ⟨rfl, hprefix⟩, ?_, ?_, ?_⟩
      · rw [runAll_cons]
        simp only [Bool.false_eq_true, if_false, hperform]
      · intro before last h
        cases before with
        | nil =>
          obtain ⟨rfl, -⟩ := List.cons_prefix_cons.mp h
          exact hwaits
        | cons first before =>
          obtain ⟨rfl, hrest⟩ := List.cons_prefix_cons.mp h
          rw [runAll_cons]
          exact hanswered before last hrest
      · rcases hend with rfl | ⟨last, hlast, hforever⟩
        · exact .inl rfl
        · exact .inr ⟨last, List.cons_prefix_cons.mpr ⟨rfl, hlast⟩, hforever⟩

end Operation

/-- Whatever the lists hold, a server that is sent the commands of some operations claims the same
messages as the broker does and leaves the same lists, in order, just if none of them comes to be
the claim of an empty queue with no limit to its time. At the first such claim the server waits for
ever, and they agree up to it. What an operation does to the server is seen at once: while its
commands are not all there, the lists are as before. -/
theorem server_agrees (b : Broker) (operations : List Operation) :
    (((Server.of b).performAll operations).1 = (Operation.runAll b operations).1 ∧
        (∀ key, ((Server.of b).performAll operations).2.list key =
          (Operation.runAll b operations).2.list key) ↔
      ∀ before o, before ++ [o] <+: operations →
        o.waitsForever (Operation.runAll b before).2 = false) ∧
    (∃ answered, answered <+: operations ∧
      ((Server.of b).performAll operations).1 = (Operation.runAll b answered).1 ∧
      (∀ key, ((Server.of b).performAll operations).2.list key =
        (Operation.runAll b answered).2.list key) ∧
      (answered = operations ∨ ∃ o, answered ++ [o] <+: operations ∧
        o.waitsForever (Operation.runAll b answered).2 = true)) ∧
    ∀ s : Server, s = .of s.view ∧ ∀ (o : Operation) (sent : List (List String)),
      sent <+: o.sent → sent ≠ o.sent →
        ∃ replies c, Connection.serveAll ⟨s, none⟩ sent = some (replies, c) ∧ c.server = s := by
  obtain ⟨answered, hprefix, hperform, hanswered, hend⟩ := Operation.performAll_of b operations
  have hclaimed : ((Server.of b).performAll operations).1 = (Operation.runAll b answered).1 := by
    rw [hperform]
  have hlists : ∀ key, ((Server.of b).performAll operations).2.list key =
      (Operation.runAll b answered).2.list key := fun key => by rw [hperform, Server.list_of]
  refine ⟨⟨fun ⟨hsame, _⟩ => ?_, fun hnever => ?_⟩, ⟨answered, hprefix, hclaimed, hlists, hend⟩,
    fun s => ⟨s.of_view.symm, fun o sent hsent hunfinished => ?_⟩⟩
  · -- There are as many answers as operations, so none of these is left.
    have hlength : answered.length = operations.length := by
      rw [← Operation.length_claimed b answered, ← hclaimed, hsame, Operation.length_claimed]
    rw [← hprefix.eq_of_length hlength]
    exact hanswered
  · rcases hend with rfl | ⟨o, hlast, hforever⟩
    · exact ⟨hclaimed, hlists⟩
    · rw [hnever answered o hlast] at hforever
      cases hforever
  · -- A single command is there or not; it is a transaction that comes in parts.
    cases o with
    | publish | claim | settle =>
      obtain rfl | ⟨_, rfl, hnil⟩ := List.prefix_cons_iff.mp hsent
      · exact ⟨[], _, rfl, rfl⟩
      · rw [List.prefix_nil.mp hnil] at hunfinished
        exact absurd rfl hunfinished
    | restore queue processing payload =>
      exact Connection.serveAll_unfinished s
        [.removeOne processing payload, .pushRight queue payload] hsent hunfinished
    | bury deadLetter processing payload =>
      exact Connection.serveAll_unfinished s
        [.removeOne processing payload, .pushLeft deadLetter payload] hsent hunfinished

/-- Where the broker has nothing to claim and goes on, the server waits and never gets the message
that is published next. -/
theorem server_waits_forever :
    let operations : List Operation := [.claim "q" "p" 0, .publish "q" "x"]
    ((Server.of .empty).performAll operations).1 = [] ∧
    (Operation.runAll .empty operations).1 = [none, none] ∧
    ((Server.of .empty).performAll operations).2.list "q" = [] ∧
    (Operation.runAll .empty operations).2.list "q" = ["x"] := by
  decide +kernel

end SandboxWorker.Queue
