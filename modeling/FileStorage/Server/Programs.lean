import FileStorage.Client.Careful
import FileStorage.Server.Connections
import FileStorage.Server.Talks

/-! # A server and its client programs

Every client of the server is a client program: what it sends is what the program sends,
given what it has been answered. Then all clients are careful, and the files of the server
hold what the disks of the clients do.
-/

namespace FileStorage

open Program

/-- What the server has heard of what was said. A request that did not get through has not
    been answered with a descriptor. -/
inductive Heard : Talk → Talk → Prop where
  | nil : Heard [] []
  | both {said heard : Talk} (request : Request) (descriptor : Option Int) :
      Heard said heard → Heard (said ++ [(request, descriptor)]) (heard ++ [(request, descriptor)])
  | lost {said heard : Talk} (request : Request) :
      Heard said heard → Heard (said ++ [(request, none)]) heard

theorem Heard.refl (talk : Talk) : Heard talk talk := by
  induction talk using List.reverseRecOn with
  | nil => exact .nil
  | append_singleton talk entry ih => exact .both entry.1 entry.2 ih

theorem Request.next_mono {held held' : Option Handle} (request : Request)
    (descriptor : Option Int) (more : ∀ h ∈ held, h ∈ held') :
    ∀ h ∈ request.next held descriptor, h ∈ request.next held' descriptor := by
  cases request with
  | OPEN payload => exact fun _ has => has
  | WRITE payload | CLOSE payload => exact fun _ never => by cases never
  | _ => exact more

theorem Heard.held {said heard : Talk} (listens : Heard said heard) :
    ∀ h ∈ said.held, h ∈ heard.held := by
  induction listens with
  | nil => exact fun _ never => by cases never
  | both request descriptor _ ih =>
      rw [Talk.held_append, Talk.held_append]
      exact request.next_mono descriptor ih
  | lost request _ ih =>
      rw [Talk.held_append]
      exact fun h has => ih h (request.mem_next_none has)

theorem Request.Permitted.mono {Right Right' : Contents} {held held' : Option Handle}
    {request : Request} (permitted : request.Permitted Right held)
    (right : ∀ name bytes, Right name bytes → Right' name bytes)
    (more : ∀ h ∈ held, h ∈ held') : request.Permitted Right' held' := by
  cases request with
  | READ payload =>
      obtain ⟨h, has, same⟩ := permitted
      exact ⟨h, more h has, same⟩
  | WRITE payload =>
      obtain ⟨h, has, same, fresh, rightful⟩ := permitted
      exact ⟨h, more h has, same, fresh, fun bytes is => right _ _ (rightful bytes is)⟩
  | _ => trivial

/-- A client program sends the request when it has said what the server has heard. What its
    disk has is right. -/
def Spoken (Right : Contents) (heard : Talk) (request : Request) : Prop :=
  ∃ (σ : Type) (m : Machine σ) (h : OptHandler) (world : σ) (t : Connection σ) (said : Talk)
    (descriptor : Option Int) (after : Talk),
    (CommandLine.handle m h ⟨.init world, none⟩).state? = some t ∧
    t.client.talk = said ++ (request, descriptor) :: after ∧ Heard said heard ∧
    ∀ name bytes, Client.OnDisk m.toEnvironment name bytes → Right name bytes

theorem Spoken.permitted {Right : Contents} {heard : Talk} {request : Request}
    (spoken : Spoken Right heard request) : request.Permitted Right heard.held := by
  obtain ⟨σ, m, h, world, t, said, descriptor, after, ends, whole, listens, right⟩ := spoken
  have careful : t.client.talk.Careful (Client.OnDisk m.toEnvironment) :=
    (CommandLine.careful_handle m h ⟨.init world, none⟩ Talk.careful_nil).of_state ends
  exact (careful said request descriptor after whole).mono right listens.held

namespace Overheard

variable {codec : Codec}

def ByPrograms (Right : Contents) (s : Overheard codec) : Move → Prop
  | .receive index (.request request) => ∀ w ∈ s.server.workers[index]?,
      ∀ pid ∈ w.phase.pid?, Spoken Right (s.talks pid) request
  | _ => True

theorem ByPrograms.careful {Right : Contents} {s : Overheard codec} {move : Move}
    (byPrograms : s.ByPrograms Right move) : s.Careful Right move := by
  unfold ByPrograms at byPrograms
  split at byPrograms
  · exact fun w found pid holder => (byPrograms w found pid holder).permitted
  · unfold Careful
    split
    · rename_i index request other
      exact absurd rfl (other index request)
    · trivial

end Overheard

/-- In every run in which all clients are client programs, whatever they are told to do and
    in whatever order the workers handle what they send: what can be decoded of a stored file
    is on the disk of a client under that name, and so is all that the clients are told. No
    artifact is decoded after it was freed. -/
theorem programs_told_right (Right : Contents) (memoryLimit filesLimit : UInt32)
    (policy : ReplacementPolicy) (size : Nat) (moves : List Move) (s : Overheard huffmanCodec)
    (run : (overheardSystem huffmanCodec).Trace
      (.init (.init (.init memoryLimit filesLimit policy) size)) moves s)
    (byPrograms : (overheardSystem huffmanCodec).Meets (Overheard.ByPrograms Right)
      (.init (.init (.init memoryLimit filesLimit policy) size)) moves) : s.TellsRight Right :=
  Server.tellsRight_of_run (fun _ _ byPrograms => byPrograms.careful) run byPrograms

/-- A client that gets the given answers and finds the same bytes wherever it looks. -/
def scriptedMachine : Machine (List (Option Response)) where
  exchange _ answers := (answers.head?.join, answers.tail)
  fileToPointer _ _ := some [97, 98]
  save _ _ _ answers := (true, answers)
  realpath filename _ := some filename
  opendir _ _ := none
  connect _ answers := (true, answers)
  disconnect answers := (true, answers)

structure Script where
  opt : Char
  answers : List (Option Response)

namespace Script

def run (script : Script) : Option (Connection (List (Option Response))) :=
  (CommandLine.handle scriptedMachine ⟨[⟨script.opt.toUInt8, [102]⟩], some [115], false⟩
    ⟨.init script.answers, none⟩).state?

/-- The request comes next when that has been heard. -/
def Asks (script : Script) (heard : Talk) (request : Request) : Prop :=
  ∃ t ∈ script.run, t.client.talk.take heard.length = heard ∧
    ∃ entry ∈ t.client.talk[heard.length]?, entry.1 = request

instance (script : Script) (heard : Talk) (request : Request) :
    Decidable (script.Asks heard request) :=
  inferInstanceAs (Decidable (∃ t ∈ script.run, t.client.talk.take heard.length = heard ∧
    ∃ entry ∈ t.client.talk[heard.length]?, entry.1 = request))

theorem Asks.spoken {script : Script} {heard : Talk} {request : Request}
    (asks : script.Asks heard request) :
    Spoken (fun _ bytes => bytes = [97, 98]) heard request := by
  obtain ⟨t, ends, before, ⟨_, descriptor⟩, here, rfl⟩ := asks
  refine ⟨_, scriptedMachine, _, _, t, heard, descriptor, t.client.talk.drop (heard.length + 1),
    ends, ?_, .refl heard, ?_⟩
  · obtain ⟨bound, is⟩ := List.getElem?_eq_some_iff.mp here
    rw [← is, ← List.drop_eq_getElem_cons bound]
    conv_lhs => rw [← List.take_append_drop heard.length t.client.talk, before]
  · rintro name bytes ⟨path, world, -, is⟩
    exact (Option.some.inj is).symm

def Follows (scripts : Pid → Script) (s : Overheard huffmanCodec) : Move → Prop
  | .receive index (.request request) => ∀ w ∈ s.server.workers[index]?,
      ∀ pid ∈ w.phase.pid?, (scripts pid).Asks (s.talks pid) request
  | _ => True

instance decidableFollows (scripts : Pid → Script) (s : Overheard huffmanCodec) :
    (move : Move) → Decidable (Follows scripts s move)
  | .receive _ (.request request) =>
      haveI : ∀ w : Worker, Decidable (∀ pid ∈ w.phase.pid?,
          (scripts pid).Asks (s.talks pid) request) := fun _ => Option.decidableForallMem _
      Option.decidableForallMem _
  | .receive _ .closed | .receive _ (.failed _) | .accept _ | .disconnect _ | .dispatch _
  | .listen | .work _ _ => .isTrue trivial

theorem Follows.byPrograms {scripts : Pid → Script} {moves : List Move}
    {s : Overheard huffmanCodec}
    (follows : (overheardSystem huffmanCodec).Meets (Follows scripts) s moves) :
    (overheardSystem huffmanCodec).Meets
      (Overheard.ByPrograms fun _ bytes => bytes = [97, 98]) s moves := by
  induction moves generalizing s with
  | nil => trivial
  | cons move moves ih =>
      refine ⟨?_, ih follows.2⟩
      have here := follows.1
      unfold Follows at here
      unfold Overheard.ByPrograms
      split at here
      · exact fun w found pid holder => (here w found pid holder).spoken
      · trivial

end Script

def toldScripts (pid : Pid) : Script :=
  if pid = 5 then ⟨'W', [some (.OK_FD ⟨0⟩), some .OK, some .OK, some .OK]⟩
  else ⟨'r', [some (.OK_FD ⟨1⟩), some (.OK_FILE ⟨none, 2, some [97, 98]⟩), some .OK]⟩

theorem programs_told_right_read : ∃ s,
    (overheardSystem huffmanCodec).Trace (.init oneWorker) toldMoves s ∧
    (overheardSystem huffmanCodec).Meets
      (Overheard.ByPrograms fun _ bytes => bytes = [97, 98]) (.init oneWorker) toldMoves ∧
    s.TellsRight (fun _ bytes => bytes = [97, 98]) ∧
    (∃ inode ∈ s.server.fileSystem.file [102],
      s.server.fileSystem.content inode = [97, 98]) ∧
    ∃ w ∈ s.server.workers, w.phase = .answered 6 (.READ ⟨1⟩) (.OK_FILE [97, 98]) := by
  have enabled : (overheardSystem huffmanCodec).Meets (overheardSystem huffmanCodec).Enabled
      (.init oneWorker) toldMoves := by decide +kernel
  have follows : (overheardSystem huffmanCodec).Meets (Script.Follows toldScripts)
      (.init oneWorker) toldMoves := by decide +kernel
  have run := ActionSystem.Trace.of_enabled enabled
  have byPrograms := Script.Follows.byPrograms follows
  exact ⟨_, run, byPrograms, programs_told_right _ 1 4 .fifo 1 toldMoves _ run byPrograms,
    by decide +kernel, by decide +kernel⟩

end FileStorage
