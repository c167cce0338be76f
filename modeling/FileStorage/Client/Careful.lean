import FileStorage.Client.Brackets
import FileStorage.Server.Conduct

/-! # The client program is careful

It reads through the descriptor that it has opened last, and writes what it finds on its
disk, once, to a file that it has just created. This does not depend on what the server
answers.
-/

namespace FileStorage

open Program

namespace Response

def descriptor : Response → Option Int
  | OK_FD payload => some payload.number
  | _ => none

end Response

namespace Client

variable {σ : Type} {env : Environment σ} {s : Client σ} {request : Request} {pathname : CString}

def talk (s : Client σ) : Talk :=
  s.exchanges.map fun exchange => (exchange.1, exchange.2.bind Response.descriptor)

/-- What the disk has, at some time, in a file of this name. -/
def OnDisk (env : Environment σ) : Contents := fun name bytes =>
  ∃ path world, Filename.ofString (some path) = name ∧ env.fileToPointer path world = some bytes

theorem talk_exchanged (s : Client σ) (request : Request) :
    (s.exchanged env request).talk =
      s.talk ++ [(request, (env.exchange request s.world).1.bind Response.descriptor)] := by
  simp only [talk, exchanged, List.map_append, List.map_cons, List.map_nil]

/-- The client has been careful so far. -/
def Careful (env : Environment σ) (s : Client σ) : Prop := s.talk.Careful (OnDisk env)

/-- It is, and the descriptor that it has is that of the file. -/
structure Holding (env : Environment σ) (pathname : CString) (fresh : Bool) (s : Client σ) :
    Prop where
  careful : Careful env s
  held : ∃ h, s.talk.held = some h ∧ h.name = Filename.ofString (some pathname) ∧
    h.fresh = fresh ∧ s.fileDescriptorTable.get (Filename.ofString (some pathname)) = some h.fd

theorem Careful.exchanged (careful : Careful env s)
    (permitted : request.Permitted (OnDisk env) s.talk.held) :
    Careful env (s.exchanged env request) := by
  rw [Careful, talk_exchanged]
  exact Talk.Careful.append careful permitted _

/-! ## The calls -/

theorem careful_resetFlags : Keeps (Careful env) (resetFlags : Api σ Unit) :=
  .modify fun _ careful => careful

theorem careful_send (permitted : ∀ held, request.Permitted (OnDisk env) held) :
    Keeps (Careful env) (sendAndDestroyRequest env request) :=
  keeps_send fun _ careful => careful.exchanged (permitted _)

theorem careful_plainCall (permitted : ∀ held, request.Permitted (OnDisk env) held) :
    Keeps (Careful env) (plainCall env request) :=
  plainCall_keeps (careful_send permitted) careful_resetFlags

theorem careful_lockFile (pathname : Option CString) :
    Keeps (Careful env) (lockFile env pathname) :=
  .bind (keeps_descriptor pathname) fun _ => careful_plainCall fun _ => trivial

theorem careful_unlockFile (pathname : Option CString) :
    Keeps (Careful env) (unlockFile env pathname) :=
  .bind (keeps_descriptor pathname) fun _ => careful_plainCall fun _ => trivial

theorem careful_removeFile (pathname : Option CString) :
    Keeps (Careful env) (removeFile env pathname) :=
  .bind (.orFail _ _) fun _ => careful_plainCall fun _ => trivial

theorem careful_closeFile (pathname : Option CString) :
    Keeps (Careful env) (closeFile env pathname) := by
  refine .bind (keeps_descriptor pathname) fun _ => ?_
  refine .bind (careful_send fun _ => trivial) fun response => ?_
  cases response with
  | OK =>
      refine .bind .get fun s => ?_
      cases s.fileDescriptorTable.remove (Filename.ofString pathname) with
      | none => exact .fault _
      | some table =>
          exact .bind (.modify fun _ careful => careful) fun _ =>
            .bind (.modify fun _ careful => careful) fun _ => careful_resetFlags
  | _ => exact .throw _

theorem careful_saveFile (filename dirname : Option CString) (buf : Option (List UInt8)) :
    Keeps (Careful env) (saveFile env filename dirname buf) :=
  saveFile_keeps (fun _ _ _ _ careful => careful) filename dirname buf

theorem openFile_holding (careful : Careful env s) (pathname : CString) (flags : Int) :
    (openFile env (some pathname) flags s).Post
      (fun _ => Holding env pathname ((toUnsigned32 flags).testBit 0)) (fun _ => Careful env)
      (fun _ => True) := by
  have next : Careful env (s.exchanged env (.OPEN ⟨some pathname, flags⟩)) :=
    careful.exchanged trivial
  simp only [openFile, post_bind, post_orFail, post_send]
  refine ⟨fun null => absurd null (Option.some_ne_none _), fun path _ => ?_⟩
  cases received : (env.exchange (.OPEN ⟨some pathname, flags⟩) s.world).1 with
  | none => exact next
  | some response =>
      cases response with
      | OK_FD payload =>
          simp only [post_bind, post_modify, post_failIf, post_get, post_orFail]
          refine ⟨fun _ => next, fun _ => ⟨fun _ => next, fun table added => ⟨next, ?_⟩⟩⟩
          refine ⟨⟨Filename.ofString (some pathname), payload.number,
            (toUnsigned32 flags).testBit 0⟩, ?_, rfl, rfl, ?_⟩
          · change (talk (s.exchanged env (.OPEN ⟨some pathname, flags⟩))).held = _
            rw [talk_exchanged, Talk.held_append, received]
            rfl
          · exact (TernarySearchTree.get_put added _).trans (if_pos rfl)
      | _ => exact next

theorem readFile_careful {fresh : Bool} (holding : Holding env pathname fresh s) :
    (readFile env (some pathname) s).Post (fun _ => Careful env) (fun _ => Careful env)
      (fun _ => True) := by
  obtain ⟨careful, h, held, -, -, found⟩ := holding
  simp only [readFile, getDescriptor, post_bind, post_orFail, post_get, post_send]
  refine ⟨fun _ => careful, fun _ _ => ⟨fun _ => careful, fun fd is => ?_⟩⟩
  obtain rfl := Option.some.inj (found.symm.trans is)
  have next : Careful env (s.exchanged env (.READ ⟨h.fd⟩)) := careful.exchanged ⟨h, held, rfl⟩
  cases (env.exchange (.READ ⟨h.fd⟩) s.world).1 with
  | none => exact next
  | some response => cases response <;> exact next

/-- A file that has just been created is written with what the disk has. -/
theorem writeFile_careful (holding : Holding env pathname true s) (dirname : Option CString) :
    (writeFile env (some pathname) dirname s).Post (fun _ => Careful env) (fun _ => Careful env)
      (fun _ => True) := by
  obtain ⟨careful, h, held, named, fresh, found⟩ := holding
  simp only [writeFile, appendToFile, getDescriptor, post_bind, post_get, post_failIf, post_orFail,
    post_send]
  refine ⟨fun _ => careful, fun _ => ⟨fun _ => careful, fun path same => ⟨fun _ => careful,
    fun file onDisk => ⟨fun _ => careful, fun _ _ => ⟨fun _ => careful, fun fd is => ?_⟩⟩⟩⟩⟩
  obtain rfl := Option.some.inj same
  obtain rfl := Option.some.inj (found.symm.trans is)
  have next : Careful env (s.exchanged env (.WRITE ⟨h.fd, file.length, some file⟩)) := by
    refine careful.exchanged ⟨h, held, rfl, fresh, fun bytes is => ?_⟩
    obtain rfl := Option.some.inj is
    exact ⟨pathname, s.world, named.symm, onDisk⟩
  cases (env.exchange (.WRITE ⟨h.fd, file.length, some file⟩) s.world).1 with
  | none => exact next
  | some response =>
      cases response with
      | OK_FILE_LIST payload =>
          have saves : Keeps (Careful env) (do
              saveFiles env dirname payload.queue
              resetFlags) :=
            .bind (saveFiles_keeps careful_saveFile _ _) fun _ => careful_resetFlags
          exact saves _ next
      | _ => exact next

/-! ## The commands -/

theorem careful_between {α β : Type} {flags : Int} {inner : Api σ α}
    {after : α → Except ApiError Unit → Api σ β}
    (settles : ∀ s, Holding env pathname ((toUnsigned32 flags).testBit 0) s →
      (inner s).Post (fun _ => Careful env) (fun _ _ => False) (fun _ => True))
    (kept : ∀ a result, Keeps (Careful env) (after a result)) :
    Keeps (Careful env) (do
      openFile env (some pathname) flags
      let a ← inner
      let result ← attempt (closeFile env (some pathname))
      after a result) :=
  keeps_between (fun _ careful => openFile_holding careful pathname flags) settles
    (careful_closeFile (some pathname)) kept

theorem careful_reading : Reading env (Careful env) := by
  refine fun pathname _ kept => careful_between (fun s holding => ?_) kept
  rw [post_attempt]
  exact readFile_careful holding

theorem careful_onFile {m : Machine σ} {filename : CString} {flags : Nat} {step : Api σ Unit}
    {steps : List (Api σ Unit)}
    (first : ∀ s, Holding m.toEnvironment filename ((toUnsigned32 flags).testBit 0) s →
      (step s).Post (fun _ => Careful m.toEnvironment) (fun _ => Careful m.toEnvironment)
        (fun _ => True))
    (others : ∀ step ∈ steps, Keeps (Careful m.toEnvironment) step) :
    Keeps (Careful m.toEnvironment) (onFile m filename flags (step :: steps)) := by
  refine careful_between (fun s holding => ?_) fun results resClose =>
    .bind (keeps_reportFirst results) fun _ => keeps_reportError resClose
  have rest : ∀ result, Settles (Careful m.toEnvironment) (do
      let results ← attemptAll steps
      pure (result :: results)) := fun _ => .bind (settles_attemptAll others) fun _ => .pure _
  rw [attemptAll, post_bind, post_attempt]
  exact (first s holding).mono (fun _ _ careful => rest _ _ careful)
    (fun _ _ careful => rest _ _ careful) (fun _ _ => trivial)

theorem careful_onFile_single {m : Machine σ} {filename : CString} {flags : Nat}
    {step : Api σ Unit} (kept : Keeps (Careful m.toEnvironment) step) :
    Keeps (Careful m.toEnvironment) (onFile m filename flags [step]) :=
  careful_onFile (fun s holding => kept s holding.careful) (by simp)

theorem guarded_careful (m : Machine σ) : Guarded m (Careful m.toEnvironment) where
  sends := fun dirname filename => by
    have creates : (toUnsigned32 (O_CREATE ||| O_LOCK : Nat)).testBit 0 = true := by decide +kernel
    refine careful_onFile (fun s holding => ?_) fun step member => ?_
    · rw [creates] at holding
      exact writeFile_careful holding dirname
    · obtain rfl := List.mem_singleton.mp member
      exact careful_unlockFile _
  removes := fun _ => careful_onFile_single (careful_removeFile _)
  locks := fun _ => careful_onFile_single (careful_lockFile _)
  unlocks := fun _ => careful_onFile_single (careful_unlockFile _)
  reads := keeps_optArgReadFile careful_reading careful_saveFile
  readsN := fun _ dirname => keeps_readNFiles (careful_send fun _ => trivial) careful_resetFlags
    careful_reading careful_saveFile dirname

end Client

/-! ## The program -/

namespace CommandLine

open Client

variable {σ : Type} (m : Machine σ)

theorem careful_handle (h : OptHandler) :
    Keeps (fun s => Careful m.toEnvironment s.client) (handle m h) := by
  refine keeps_handle (guarded_careful m) (fun s t same careful => ?_) h
  rwa [Careful, talk, same]

/-- Whatever the server answers and however the program ends: it has only read through the
    descriptor that it has opened last, and written to a file that it has just created what is
    on its disk under that name, once. -/
theorem client_careful (h : OptHandler) (world : σ) :
    (handle m h ⟨.init world, none⟩).Post
      (fun _ t => t.client.talk.Careful (OnDisk m.toEnvironment))
      (fun _ t => t.client.talk.Careful (OnDisk m.toEnvironment)) (fun _ => True) :=
  careful_handle m h _ Talk.careful_nil

end CommandLine

end FileStorage
