import AcademyLab.Chat.Delivery
import AcademyLab.Chat.Session
import AcademyLab.Chat.Stores

/-!
# What a received line tells of its origin

Every message but the refusal starts with a tag in brackets: the name of the
sender, "You" or "Server". Names may hold any bytes but CR, LF and NUL, so a
line shows its origin as long as no name imitates a tag or a delimiter.
-/
namespace AcademyLab.Chat
open Machine CString

def renameMark : Bytes := ascii " changed name to "

/-- What stands in the brackets. -/
def Msg.tag : Msg → Bytes
  | .chat name _ => name
  | .you _ => ascii "You"
  | _ => serverName

/-- What stands behind them. -/
def Msg.body : Msg → Bytes
  | .connected name => name ++ ascii " connected.\n"
  | .disconnected name => name ++ ascii " has disconnected.\n"
  | .changedName oldName newName => oldName ++ renameMark ++ (newName ++ ascii ".\n")
  | .nameRule => ascii "Name must be between 1 and 29 characters.\n"
  | .you text | .chat _ text => text ++ ascii "\n"
  | .refused name => ascii "Max clients reached. Connection from " ++ name ++ ascii " refused.\n"
  | .full => []

theorem Msg.bytes_eq {msg : Msg} (h : msg ≠ .full) :
    msg.bytes = ascii "[" ++ (msg.tag ++ ascii "] " ++ msg.body) := by
  cases msg with
  | full => exact absurd rfl h
  | nameRule => decide
  | you text => exact (List.append_assoc (ascii "[You] ") text (ascii "\n"))
  | _ => simp [Msg.bytes, Msg.tag, Msg.body, serverTag, renameMark]

/-- The name holds no mark of a change of name and does not end in one that lacks its
last blank. -/
def Unmarked (name : Bytes) : Prop :=
  ¬ renameMark <:+: name ∧ ¬ ascii " changed name to" <:+ name

instance (name : Bytes) : Decidable (Unmarked name) := inferInstanceAs (Decidable (_ ∧ _))

/-- The sender of a chat line is not called like the server or the echo, and its
name does not close the bracket early; a name that somebody gives up is unmarked. -/
def Msg.Honest : Msg → Prop
  | .chat name _ => name ≠ serverName ∧ name ≠ ascii "You" ∧ ¬ ascii "] " <:+: name
  | .disconnected name => Unmarked name
  | .changedName oldName _ => Unmarked oldName
  | _ => True

instance (msg : Msg) : Decidable msg.Honest :=
  match msg with
  | .chat _ _ => inferInstanceAs (Decidable (_ ∧ _ ∧ _))
  | .disconnected _ | .changedName _ _ => inferInstanceAs (Decidable (Unmarked _))
  | .connected _ | .nameRule | .you _ | .full | .refused _ => isTrue trivial

/-- The stores of a step stay inside their buffers. -/
def KeepsToBuffers {W : Type} (w : Watcher W) (s : System W) (inp : Input) : Prop :=
  ∀ e ∈ (sysStep w s inp).2, e.InBounds

instance {W : Type} (w : Watcher W) (s : System W) (inp : Input) :
    Decidable (KeepsToBuffers w s inp) := inferInstanceAs (Decidable (∀ _ ∈ _, _))

/-- Some server writes the message to a client, in a run that has kept to its buffers. -/
def Delivered (msg : Msg) : Prop :=
  ∃ (W : Type) (w : Watcher W) (listenfd : ℕ) (watch : W) (mem : Table) (inherited : Finset ℤ)
    (is : List Input) (inp : Input) (fd : ℤ),
    let boot := System.boot listenfd watch mem inherited
    Along (sysStep w) (Legal w) boot (is ++ [inp]) ∧
      Along (sysStep w) (KeepsToBuffers w) boot (is ++ [inp]) ∧ 0 ≤ fd ∧
      .write fd msg ∈ (sysStep w (exec (sysStep w) boot is) inp).2

/-- A client is never sent the text that the server prints of a refusal, and the
name in a notice of a new client is its address. -/
theorem copyFor_eq_some {W : Type} {w : Watcher W} {c : Loop W} {inp : Input} {fd : ℤ}
    {msg : Msg} (h : copyFor w c inp fd = some msg) :
    (∀ name, msg ≠ .refused name) ∧
      ∀ name, msg = .connected name → ∃ addr, name = addrToStr addr nameSize := by
  have hname : ∃ addr, (newClient inp).name = addrToStr addr nameSize := by
    unfold newClient
    cases inp.accept with
    | none => exact ⟨inp.stack.addr, rfl⟩
    | some conn => exact ⟨conn.addr, rfl⟩
  unfold copyFor at h
  cases hpc : c.pc with
  | wait => simp [hpc] at h
  | accept =>
    simp only [hpc] at h
    cases hf : firstFree c.server.clients with
    | some i =>
      simp only [hf] at h
      split_ifs at h
      obtain rfl := Option.some.inj h
      exact ⟨fun _ => Msg.noConfusion, fun name hn => Msg.connected.inj hn ▸ hname⟩
    | none =>
      simp only [hf] at h
      split_ifs at h
      obtain rfl := Option.some.inj h
      exact ⟨fun _ => Msg.noConfusion, fun _ => Msg.noConfusion⟩
  | scan i =>
    by_cases hready : 0 ≤ (c.server.clients i).fd ∧
        w.clientReady c.server.watch i (c.server.clients i).fd = true
    swap
    · simp [hpc, hready] at h
    simp only [hpc, if_pos hready] at h
    cases hread : inp.read with
    | none =>
      simp only [hread] at h
      split_ifs at h
      obtain rfl := Option.some.inj h
      exact ⟨fun _ => Msg.noConfusion, fun _ => Msg.noConfusion⟩
    | some chunk =>
      simp only [hread] at h
      generalize (c.server.clients i).outcome chunk.data inp.now = o at h
      cases o <;> simp only [replyTo, reduceCtorEq] at h
      all_goals
        split_ifs at h
        all_goals
          obtain rfl := Option.some.inj h
          exact ⟨fun _ => Msg.noConfusion, fun _ => Msg.noConfusion⟩

/-! ## Reading a message back -/

inductive Kind
  | connected
  | disconnected
  | changedName
  | nameRule
  | you
  | chat
  | other
  deriving DecidableEq

def Msg.kind : Msg → Kind
  | .connected _ => .connected
  | .disconnected _ => .disconnected
  | .changedName _ _ => .changedName
  | .nameRule => .nameRule
  | .you _ => .you
  | .chat _ _ => .chat
  | .full | .refused _ => .other

/-- How a receiver may tell the messages apart. -/
def readKind (tag body : Bytes) : Kind :=
  if tag = ascii "You" then .you
  else if tag ≠ serverName then .chat
  else if renameMark <:+: body then .changedName
  else if ascii " connected.\n" <:+ body then .connected
  else if ascii " has disconnected.\n" <:+ body then .disconnected
  else .nameRule

/-- The names in a message can be read back, and it is one that clients get. -/
structure Readable (msg : Msg) : Prop where
  honest : msg.Honest
  address : ∀ name, msg = .connected name → Clear renameMark name
  sent : msg.kind ≠ .other

theorem Unmarked.clear {name : Bytes} (h : Unmarked name) : Clear renameMark name := by
  have hborder : ∀ k < renameMark.length, 0 < k → renameMark.drop k <+: renameMark.dropLast →
      renameMark.take k = ascii " changed name to" := by decide
  refine clear_of_borders h.1 fun k hk hpos hpre => ?_
  rw [hborder k hk hpos hpre]
  exact h.2

theorem clear_bracket {name : Bytes} (h : ¬ ascii "] " <:+: name) : Clear (ascii "] ") name := by
  have hborder : ∀ k < (ascii "] ").length, 0 < k →
      ¬ (ascii "] ").drop k <+: (ascii "] ").dropLast := by decide
  exact clear_of_borders h fun k hk hpos hpre => absurd hpre (hborder k hk hpos)

theorem clear_tag {msg : Msg} (h : msg.Honest) : Clear (ascii "] ") msg.tag := by
  have hserver : Clear (ascii "] ") serverName := by decide
  have hyou : Clear (ascii "] ") (ascii "You") := by decide
  cases msg with
  | chat name text => exact clear_bracket h.2.2
  | you text => exact hyou
  | _ => exact hserver

theorem clear_addrToStr (addr : SockAddr) : Clear renameMark (addrToStr addr nameSize) := by
  have hspace : (32 : UInt8) ∉ addrToStr addr nameSize := by
    intro hmem
    exact absurd (mem_addrToStr hmem).1 (by decide)
  exact clear_of_head_notMem hspace

/-- The ending of a notice completes no mark that its name has begun. -/
theorem readKind_eq {msg : Msg} (h : Readable msg) : readKind msg.tag msg.body = msg.kind := by
  have hyou : serverName ≠ ascii "You" := by decide
  cases msg with
  | full => exact absurd rfl h.sent
  | refused name => exact absurd rfl h.sent
  | you text => exact if_pos rfl
  | chat name text => exact (if_neg h.honest.2.1).trans (if_pos h.honest.1)
  | nameRule => decide
  | changedName oldName newName =>
    have hmark : renameMark <:+: oldName ++ renameMark ++ (newName ++ ascii ".\n") :=
      List.infix_append oldName renameMark _
    change readKind serverName (oldName ++ renameMark ++ (newName ++ ascii ".\n")) = _
    rw [readKind, if_neg hyou, if_neg (not_not.mpr rfl), if_pos hmark]
    rfl
  | connected name =>
    have hmark : ¬ renameMark <:+: name ++ ascii " connected.\n" :=
      notInfix_append_of_clear (h.address name rfl) (by decide) (by decide)
    change readKind serverName (name ++ ascii " connected.\n") = _
    rw [readKind, if_neg hyou, if_neg (not_not.mpr rfl), if_neg hmark, if_pos ⟨name, rfl⟩]
    rfl
  | disconnected name =>
    have hmark : ¬ renameMark <:+: name ++ ascii " has disconnected.\n" :=
      notInfix_append_of_clear (Unmarked.clear h.honest) (by decide) (by decide)
    have hend : ¬ ascii " connected.\n" <:+ name ++ ascii " has disconnected.\n" := by
      intro hc
      have hd : ascii " has disconnected.\n" <:+ name ++ ascii " has disconnected.\n" :=
        ⟨name, rfl⟩
      rcases List.suffix_or_suffix_of_suffix hc hd with he | he
      · exact absurd he (by decide)
      · exact absurd he (by decide)
    change readKind serverName (name ++ ascii " has disconnected.\n") = _
    rw [readKind, if_neg hyou, if_neg (not_not.mpr rfl), if_neg hmark, if_neg hend,
      if_pos ⟨name, rfl⟩]
    rfl

theorem eq_of_tag_body {msg msg' : Msg} (h : Readable msg) (h' : Readable msg')
    (htag : msg.tag = msg'.tag) (hbody : msg.body = msg'.body) : msg = msg' := by
  have hkind : msg.kind = msg'.kind := by
    rw [← readKind_eq h, ← readKind_eq h', htag, hbody]
  cases msg with
  | full => exact absurd rfl h.sent
  | refused name => exact absurd rfl h.sent
  | nameRule =>
    cases msg' with
    | nameRule => rfl
    | _ => cases hkind
  | chat name text =>
    cases msg' with
    | chat name' text' =>
      have hname : name = name' := htag
      have htext : text = text' := List.append_cancel_right hbody
      rw [hname, htext]
    | _ => cases hkind
  | you text =>
    cases msg' with
    | you text' =>
      have htext : text = text' := List.append_cancel_right hbody
      rw [htext]
    | _ => cases hkind
  | connected name =>
    cases msg' with
    | connected name' =>
      have hname : name = name' := List.append_cancel_right hbody
      rw [hname]
    | _ => cases hkind
  | disconnected name =>
    cases msg' with
    | disconnected name' =>
      have hname : name = name' := List.append_cancel_right hbody
      rw [hname]
    | _ => cases hkind
  | changedName oldName newName =>
    cases msg' with
    | changedName oldName' newName' =>
      obtain ⟨hold, hnew⟩ :=
        append_inj_of_clear (by decide) (Unmarked.clear h.honest) (Unmarked.clear h'.honest)
          (show _ = _ from hbody)
      rw [hold, List.append_cancel_right hnew]
    | _ => cases hkind

/-- What the `select()` server writes in a legal run that keeps to its buffers is
delivered. -/
theorem delivered_of_run (is : List Input) (inp : Input) (fd : ℤ) {msg : Msg} (h0 : 0 ≤ fd)
    (hl : Along (sysStep selectWatch) (Legal selectWatch)
      (System.boot 3 (FdSets.init 3) default {0, 1, 2}) (is ++ [inp]))
    (hb : Along (sysStep selectWatch) (KeepsToBuffers selectWatch)
      (System.boot 3 (FdSets.init 3) default {0, 1, 2}) (is ++ [inp]))
    (hmem : .write fd msg ∈ (sysStep selectWatch (exec (sysStep selectWatch)
      (System.boot 3 (FdSets.init 3) default {0, 1, 2}) is) inp).2) : Delivered msg :=
  ⟨FdSets, selectWatch, 3, FdSets.init 3, default, {0, 1, 2}, is, inp, fd, hl, hb, h0, hmem⟩

/-- Clients on 4 and 5; the first one sends lines and is reported once more. -/
def talk (chunks : List Chunk) : List Input :=
  iteration {3} (some ⟨4, default⟩) default (fun _ => none) 0 ++
    iteration {3} (some ⟨5, default⟩) default (fun _ => none) 0 ++
    chunks.flatMap (fun chunk => iteration {4} none default (fun _ => some chunk) 1) ++
    [{ (default : Input) with ready := {4} }, default]

/-- The answer to the last `read` of the first client. -/
def said (chunk : Chunk) : Input := { (default : Input) with read := some chunk, now := 1 }

theorem delivered_you : Delivered (.you (ascii "x")) :=
  delivered_of_run (talk []) (said (lineChunk "x" (by decide))) 4 (by decide) (by decide)
    (by decide) (by decide)

theorem Delivered.readable {msg : Msg} (h : Delivered msg) (honest : msg.Honest)
    (hfull : msg ≠ .full) : Readable msg := by
  obtain ⟨W, w, listenfd, watch, mem, inherited, is, inp, fd, hlegal, -, h0, hmem⟩ := h
  rw [along_append] at hlegal
  have hrun : InRun w (exec (sysStep w) (System.boot listenfd watch mem inherited) is) :=
    ⟨listenfd, watch, mem, inherited, is, hlegal.1, rfl⟩
  have hsent := mem_sentTo.mpr hmem
  rw [sentTo_sysStep hrun.sound hlegal.2.1 h0, Option.mem_toList] at hsent
  obtain ⟨hrefused, hconnected⟩ := copyFor_eq_some hsent
  refine ⟨honest, fun name hname => ?_, ?_⟩
  · obtain ⟨addr, rfl⟩ := hconnected name hname
    exact clear_addrToStr addr
  · cases msg with
    | full => exact absurd rfl hfull
    | refused name => exact absurd rfl (hrefused name)
    | _ => exact Kind.noConfusion

/-- The refusal is the only message without a tag. -/
theorem bytes_ne_full {msg : Msg} (h : msg ≠ .full) : msg.bytes ≠ Msg.full.bytes := by
  intro he
  rw [Msg.bytes_eq h] at he
  exact absurd (congrArg List.head? he) (show some 91 ≠ some 83 by decide)

/-- Any two messages that clients are sent differ in their bytes, as long as the server
keeps to its buffers and the names in them are honest. -/
theorem origin_of_bytes {msg msg' : Msg} (h : Delivered msg) (h' : Delivered msg')
    (honest : msg.Honest) (honest' : msg'.Honest) (hb : msg.bytes = msg'.bytes) : msg = msg' := by
  by_cases hm : msg = .full
  · subst hm
    by_contra hne
    exact bytes_ne_full (Ne.symm hne) hb.symm
  by_cases hm' : msg' = .full
  · subst hm'
    exact absurd hb (bytes_ne_full hm)
  rw [Msg.bytes_eq hm, Msg.bytes_eq hm', List.append_cancel_left_eq] at hb
  obtain ⟨htag, hbody⟩ := append_inj_of_clear (by decide) (clear_tag honest) (clear_tag honest') hb
  exact eq_of_tag_body (h.readable honest hm) (h'.readable honest' hm') htag hbody

theorem origin_of_bytes_you : Msg.you (ascii "x") = Msg.you (ascii "x") :=
  origin_of_bytes delivered_you delivered_you trivial trivial rfl

/-- A line of 4089 letters fits `recv_buf`, but not `send_buf` behind the echo's tag. -/
def longChunk : Chunk where
  data := List.replicate 4089 120
  nonempty := by
    rw [List.length_replicate]
    decide
  fits := by
    rw [List.length_replicate]
    decide

/-- A chat line can read like a notice, like the echo and like the line of another
client, a change of name like another one, and a leaving client like a change. And a
long line leaves `send_buf`. -/
theorem imitations :
    (Delivered (.chat serverName (ascii "0.0.0.0:0 connected.")) ∧
      Delivered (.connected (ascii "0.0.0.0:0")) ∧
      (Msg.chat serverName (ascii "0.0.0.0:0 connected.")).bytes =
        (Msg.connected (ascii "0.0.0.0:0")).bytes) ∧
    (Delivered (.chat (ascii "You") (ascii "x")) ∧ Delivered (.you (ascii "x")) ∧
      (Msg.chat (ascii "You") (ascii "x")).bytes = (Msg.you (ascii "x")).bytes) ∧
    (Delivered (.chat (ascii "a] b") (ascii "c")) ∧ Delivered (.chat (ascii "a") (ascii "b] c")) ∧
      (Msg.chat (ascii "a] b") (ascii "c")).bytes = (Msg.chat (ascii "a") (ascii "b] c")).bytes) ∧
    (Delivered (.changedName (ascii "a changed name to b") (ascii "c")) ∧
      Delivered (.changedName (ascii "a") (ascii "b changed name to c")) ∧
      (Msg.changedName (ascii "a changed name to b") (ascii "c")).bytes =
        (Msg.changedName (ascii "a") (ascii "b changed name to c")).bytes) ∧
    (Delivered (.changedName (ascii "a changed name to") (ascii "b")) ∧
      Delivered (.changedName (ascii "a") (ascii "changed name to b")) ∧
      (Msg.changedName (ascii "a changed name to") (ascii "b")).bytes =
        (Msg.changedName (ascii "a") (ascii "changed name to b")).bytes) ∧
    (Delivered (.disconnected (ascii "a changed name to b")) ∧
      Delivered (.changedName (ascii "a") (ascii "b has disconnected")) ∧
      (Msg.disconnected (ascii "a changed name to b")).bytes =
        (Msg.changedName (ascii "a") (ascii "b has disconnected")).bytes) ∧
    (Delivered (.disconnected (ascii "a changed name to")) ∧
      Delivered (.changedName (ascii "a") (ascii "has disconnected")) ∧
      (Msg.disconnected (ascii "a changed name to")).bytes =
        (Msg.changedName (ascii "a") (ascii "has disconnected")).bytes) ∧
    let boot := System.boot 3 (FdSets.init 3) default {0, 1, 2}
    Along (sysStep selectWatch) (Legal selectWatch) boot (talk [] ++ [said longChunk]) ∧
      ¬ KeepsToBuffers selectWatch (exec (sysStep selectWatch) boot (talk []))
        (said longChunk) := by
  have hsaid (chunks : List Chunk) (inp : Input) (fd : ℤ) {msg : Msg} :=
    @delivered_of_run (talk chunks) inp fd msg
  refine ⟨⟨?_, ?_, by decide⟩, ⟨?_, delivered_you, by decide⟩, ⟨?_, ?_, by decide⟩,
    ⟨?_, ?_, by decide⟩, ⟨?_, ?_, by decide⟩, ⟨?_, ?_, by decide⟩, ⟨?_, ?_, by decide⟩, ?_, ?_⟩
  · exact hsaid [lineChunk "/name Server" (by decide)]
      (said (lineChunk "0.0.0.0:0 connected." (by decide))) 5 (by decide) (by decide) (by decide)
      (by decide)
  · exact delivered_of_run [{ (default : Input) with ready := {3} }] (firstInput 0) 4
      (by decide) (by decide) (by decide) (by decide)
  · exact hsaid [lineChunk "/name You" (by decide)] (said (lineChunk "x" (by decide))) 5
      (by decide) (by decide) (by decide) (by decide)
  · exact hsaid [lineChunk "/name a] b" (by decide)] (said (lineChunk "c" (by decide))) 5
      (by decide) (by decide) (by decide) (by decide)
  · exact hsaid [lineChunk "/name a" (by decide)] (said (lineChunk "b] c" (by decide))) 5
      (by decide) (by decide) (by decide) (by decide)
  · exact hsaid [lineChunk "/name a changed name to b" (by decide)]
      (said (lineChunk "/name c" (by decide))) 5 (by decide) (by decide) (by decide) (by decide)
  · exact hsaid [lineChunk "/name a" (by decide)]
      (said (lineChunk "/name b changed name to c" (by decide))) 5 (by decide) (by decide)
      (by decide) (by decide)
  · exact hsaid [lineChunk "/name a changed name to" (by decide)]
      (said (lineChunk "/name b" (by decide))) 5 (by decide) (by decide) (by decide) (by decide)
  · exact hsaid [lineChunk "/name a" (by decide)]
      (said (lineChunk "/name changed name to b" (by decide))) 5 (by decide) (by decide)
      (by decide) (by decide)
  · exact hsaid [lineChunk "/name a changed name to b" (by decide)] default 5 (by decide)
      (by decide) (by decide) (by decide)
  · exact hsaid [lineChunk "/name a" (by decide)]
      (said (lineChunk "/name b has disconnected" (by decide))) 5 (by decide) (by decide)
      (by decide) (by decide)
  · exact hsaid [lineChunk "/name a changed name to" (by decide)] default 5 (by decide)
      (by decide) (by decide) (by decide)
  · exact hsaid [lineChunk "/name a" (by decide)]
      (said (lineChunk "/name has disconnected" (by decide))) 5 (by decide) (by decide)
      (by decide) (by decide)
  · decide +kernel
  · decide +kernel

end AcademyLab.Chat
