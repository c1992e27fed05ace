import MarieRs.Lsp.Server

/-! A session with a client is a conversation about what it told last: the server could as well
have no memory, and be handed the last text of a document with every message. -/

namespace MarieRs.Lsp

open Lib.Latest
open Lint (Linter)

/-- The text of a document, and its version. -/
structure Revision where
  text : Str
  version : Int

def Revision.analysed (revision : Revision) : OpenDocument :=
  .new revision.text revision.version Linter.new

/-- What a message tells of a document: its text, or that it is closed. -/
def Message.tells : Message → Option (Uri × Option Revision)
  | .notification (.didOpen uri text version) => some (uri, some ⟨text, version⟩)
  | .notification (.didChange uri version contentChanges) =>
    contentChanges.getLast?.map fun text => (uri, some ⟨text, version⟩)
  | .notification (.didClose uri) => some (uri, none)
  | .notification .exit | .notification .other | .request _ | .response => none

/-- All that messages told. -/
def history (messages : List Message) : List (Uri × Option Revision) :=
  messages.filterMap Message.tells

/-- The last revision of a document, while it is open. -/
def current (messages : List Message) (uri : Uri) : Option Revision :=
  (latest (history messages) uri).join

/-- What is published of a document that is told of. -/
def publication (encoding : PositionEncoding) (uri : Uri) : Option Revision → PublishDiagnostics
  | some revision =>
    ⟨uri, diagnostics revision.analysed.toLintedDocument uri encoding, some revision.version⟩
  | none => ⟨uri, [], none⟩

/-- The answer to a call, given the documents that are open. -/
inductive Answers (opened : Uri → Option Revision) (encoding : PositionEncoding) :
    Call → Except String Value → Prop
  | query {uri : Uri} {query : Query} {revision : Revision} {result : Except String Value}
      (hopen : opened uri = some revision)
      (hanswer : query.answer revision.analysed uri encoding = some result) :
      Answers opened encoding (.query uri query) result
  | unopened {uri : Uri} {query : Query} (hopen : opened uri = none) :
      Answers opened encoding (.query uri query) (.ok .null)
  | malformed {method error : String} :
      Answers opened encoding (.malformed method error)
        (.error ("bad params for " ++ method ++ ": " ++ error))
  | unknown {method : String} : Answers opened encoding (.unknown method) (.ok .null)

/-- How a message is met after others. To be asked to shut down is none of it. -/
inductive Meets (encoding : PositionEncoding) (before : List Message) :
    Message → List Sent → Prop
  | request {id : RequestId} {call : Call} {result : Except String Value}
      (hanswers : Answers (current before) encoding call result) :
      Meets encoding before (.request ⟨id, call⟩) [.response ⟨id, result⟩]
  | told {notification : Notification} {uri : Uri} {told : Option Revision}
      (htells : (Message.notification notification).tells = some (uri, told)) :
      Meets encoding before (.notification notification)
        [.published (publication encoding uri told)]
  | untold {notification : Notification}
      (htells : (Message.notification notification).tells = none) :
      Meets encoding before (.notification notification) []
  | response : Meets encoding before .response []

/-- Of a connection it is known that it answers a request to shut down, if that can still be sent,
and does not leave it to the server; and that it leaves it every other one. How the connection ends
then is its own affair. -/
structure Connection.Documented (connection : Connection) : Prop where
  other : ∀ sent asked rest, asked.call ≠ .shutdown →
    connection.handleShutdown sent asked rest = (.ok false, sent, 0)
  shutdown : ∀ sent id rest,
    (connection.handleShutdown sent ⟨id, .shutdown⟩ rest).1 ≠ .ok false ∧
      (connection.handleShutdown sent ⟨id, .shutdown⟩ rest).2.1 =
        (connection.sendAll sent [.response ⟨id, .ok .null⟩]).1

/-- A connection that does not break, and that waits for the client to exit where it was asked to
shut down. -/
def Connection.unbroken : Connection where
  send _ _ := .ok ()
  handleShutdown sent asked rest :=
    match asked.call with
    | .shutdown =>
      let sent := sent ++ [.response ⟨asked.id, .ok .null⟩]
      match rest with
      | .notification .exit :: _ => (.ok true, sent, 1)
      | _ :: _ => (.error "unexpected message during shutdown", sent, 1)
      | [] => (.error "timed out waiting for exit notification", sent, 0)
    | _ => (.ok false, sent, 0)

theorem Connection.unbroken_documented : Connection.unbroken.Documented := by
  refine ⟨fun sent asked rest hcall => ?_, fun sent id rest => ?_⟩
  · obtain ⟨id, call⟩ := asked
    cases call with
    | shutdown => exact absurd rfl hcall
    | query _ _ | malformed _ _ | unknown _ => rfl
  · simp only [unbroken]
    split <;> exact ⟨by simp, rfl⟩

/-- Where the loop is after a request to shut down, with some of the messages after it received. -/
inductive Ends (rest : List Message) : Server.Loop → Prop
  | shutDown (received : Nat) : Ends rest (.shutDown (rest.drop received))
  | failed (error : String) (received : Nat) : Ends rest (.failed error (rest.drop received))

/-- What a client, after what it sent earlier, and the server, after what it sent, send each other;
and where the loop is then. It waits for more, or was asked to shut down, or could not send. -/
inductive Session (connection : Connection) (encoding : PositionEncoding) :
    List Message → List Sent → List Message → List Sent → Server.Loop → Prop
  | waiting {earlier : List Message} {sent : List Sent} {server : Server} :
      Session connection encoding earlier sent [] sent (.waiting server)
  | shutDown {earlier rest : List Message} {sent : List Sent} {id : RequestId}
      {loop : Server.Loop} (hends : Ends rest loop) :
      Session connection encoding earlier sent (.request ⟨id, .shutdown⟩ :: rest)
        (connection.sendAll sent [.response ⟨id, .ok .null⟩]).1 loop
  | exchange {earlier rest : List Message} {message : Message} {sent reply after : List Sent}
      {loop : Server.Loop} (hmeets : Meets encoding earlier message reply)
      (hsends : connection.sendAll sent reply = (sent ++ reply, .ok ()))
      (hrest : Session connection encoding (earlier ++ [message]) (sent ++ reply) rest after loop) :
      Session connection encoding earlier sent (message :: rest) after loop
  | failed {earlier rest : List Message} {message : Message} {sent reply after : List Sent}
      {error : String} (hmeets : Meets encoding earlier message reply)
      (hfails : connection.sendAll sent reply = (after, .error error)) :
      Session connection encoding earlier sent (message :: rest) after (.failed error rest)

theorem Connection.sendAll_ok (connection : Connection) {sent reply after : List Sent}
    (h : connection.sendAll sent reply = (after, .ok ())) : after = sent ++ reply := by
  induction reply generalizing sent with
  | nil =>
    cases h
    rw [List.append_nil]
  | cons given rest ih =>
    rw [sendAll] at h
    split at h
    · cases h
    · rw [ih h, List.append_assoc, List.singleton_append]

theorem Revision.analysed_document (revision : Revision) :
    revision.analysed.toDocument = .new revision.text := by
  unfold Revision.analysed OpenDocument.new LintedDocument.new
  simp only [Lint.Linter.check_assembly]
  rfl

/-- The tokens of a text come in order, so that no difference of two positions underflows. -/
theorem semanticTokens_answers (text : Str) (encoding : PositionEncoding) :
    ∃ tokens, semanticTokens (.new text) encoding = some tokens := by
  have hshows := fun token (ht : token ∈ Asm.tokenize text) => shows_shown encoding ht
  have hordered : (Asm.tokenize text).Pairwise fun token token' =>
      (positionsOf text encoding).position token.span.start ≤
        (positionsOf text encoding).position token'.span.start := by
    refine (Asm.tokenize_ordered text).imp_of_mem fun ht ht' hle => ?_
    exact (shows_before (hshows _ ht).1 (hshows _ ht').1 hle).le
  obtain ⟨data, hdata, -⟩ := decode_encodeTokens (.new text)
    (fun token ht => (hshows token ht).2) (fun token _ => Position.zero_le _) hordered
  exact ⟨data, hdata⟩

theorem Revision.answers (revision : Revision) (query : Query) (uri : Uri)
    (encoding : PositionEncoding) :
    ∃ result, query.answer revision.analysed uri encoding = some result := by
  cases query with
  | completion position =>
    obtain ⟨items, hitems⟩ := completion_answers revision.text position encoding
    refine ⟨.ok (.completions items), ?_⟩
    simp only [Query.answer, analysed_document, hitems, Option.map_some]
  | semanticTokensFull =>
    obtain ⟨tokens, htokens⟩ := semanticTokens_answers revision.text encoding
    refine ⟨.ok (.tokens tokens), ?_⟩
    simp only [Query.answer, analysed_document, htokens, Option.map_some]
  | hover _ | gotoDefinition _ | references _ _ | documentHighlight _ | prepareRename _
  | rename _ _ | documentSymbol | inlayHint _ | codeAction _ => exact ⟨_, rfl⟩

theorem history_concat (messages : List Message) (message : Message) :
    history (messages ++ [message]) = history messages ++ message.tells.toList := by
  unfold history
  rw [List.filterMap_append]
  cases htells : message.tells <;> simp [htells]

/-- The documents are the last revisions that were told, analysed. -/
structure Server.Current (server : Server) (encoding : PositionEncoding)
    (messages : List Message) : Prop where
  documents : Keeps (fun (server : Server) uri => server.documents[uri]?)
    ((history messages).map fun entry => (entry.1, entry.2.map Revision.analysed)) server
  linter : server.linter = Linter.new
  encoding : server.encoding = encoding

namespace Server

variable {server : Server} {encoding : PositionEncoding} {messages : List Message}

theorem start_current (offered : Option (List String)) :
    (start offered).Current (.negotiate offered) [] := by
  refine ⟨Keeps.start fun uri => ?_, rfl, rfl⟩
  exact Std.HashMap.getElem?_empty

theorem Current.document (h : server.Current encoding messages) (uri : Uri) :
    server.documents[uri]? = (current messages uri).map Revision.analysed := by
  have hkeeps : server.documents[uri]? = _ := h.documents uri
  have hmap := latest_map (fun (_ : Uri) told => told.map Revision.analysed) (history messages) uri
  rw [hkeeps, hmap, current]
  cases latest (history messages) uri <;> rfl

/-- A message that tells nothing leaves it. -/
theorem Current.untold (h : server.Current encoding messages) {message : Message}
    (htells : message.tells = none) : server.Current encoding (messages ++ [message]) := by
  refine ⟨?_, h.linter, h.encoding⟩
  rw [history_concat, htells, Option.toList_none, List.append_nil]
  exact h.documents

/-- A message that tells of a document changes that one, and no other. -/
theorem Current.told (h : server.Current encoding messages) {message : Message} {uri : Uri}
    {told : Option Revision} (htells : message.tells = some (uri, told))
    {documents : Std.HashMap Uri OpenDocument}
    (huri : documents[uri]? = told.map Revision.analysed)
    (hother : ∀ other, other ≠ uri → documents[other]? = server.documents[other]?) :
    ({ server with documents } : Server).Current encoding (messages ++ [message]) := by
  refine ⟨?_, h.linter, h.encoding⟩
  rw [history_concat, htells, Option.toList_some, List.map_append]
  exact h.documents.write huri hother

theorem Current.insert (h : server.Current encoding messages) {message : Message} {uri : Uri}
    {revision : Revision} (htells : message.tells = some (uri, some revision)) :
    ({ server with documents := server.documents.insert uri revision.analysed } : Server).Current
      encoding (messages ++ [message]) := by
  refine h.told htells ?_ fun other hne => ?_
  · rw [Std.HashMap.getElem?_insert_self]
    rfl
  · rw [Std.HashMap.getElem?_insert, if_neg (by simpa using Ne.symm hne)]

theorem Current.erase (h : server.Current encoding messages) {message : Message} {uri : Uri}
    (htells : message.tells = some (uri, none)) :
    ({ server with documents := server.documents.erase uri } : Server).Current encoding
      (messages ++ [message]) := by
  refine h.told htells ?_ fun other hne => ?_
  · rw [Std.HashMap.getElem?_erase_self]
    rfl
  · rw [Std.HashMap.getElem?_erase, if_neg (by simpa using Ne.symm hne)]

/-- The diagnostics of a document that was just told of. -/
theorem Current.publish {uri : Uri} {revision : Revision}
    (h : server.Current encoding messages) (hcurrent : current messages uri = some revision) :
    server.publish uri = [publication encoding uri (some revision)] := by
  unfold Server.publish
  rw [h.document, hcurrent, Option.map_some, h.encoding]
  rfl

theorem current_told {message : Message} {uri : Uri} {told : Option Revision}
    (htells : message.tells = some (uri, told)) :
    current (messages ++ [message]) uri = told := by
  unfold current
  rw [history_concat, htells, Option.toList_some, latest_concat, if_pos rfl]
  rfl

/-- What was told is stored and published. -/
theorem Current.stores (h : server.Current encoding messages) {notification : Notification}
    {uri : Uri} (revision : Revision) {stored : Server}
    (htells : (Message.notification notification).tells = some (uri, some revision))
    (hstored : stored = { server with
      documents := server.documents.insert uri revision.analysed })
    (hdoes : server.notification notification = (stored, stored.publish uri)) :
    (server.notification notification).1.Current encoding
        (messages ++ [.notification notification]) ∧
      Meets encoding messages (.notification notification)
        ((server.notification notification).2.map .published) := by
  have hcurrent := h.insert htells
  rw [← hstored] at hcurrent
  rw [hdoes]
  refine ⟨hcurrent, ?_⟩
  rw [hcurrent.publish (current_told htells)]
  exact .told htells

theorem Current.notification (h : server.Current encoding messages)
    (notification : Notification) :
    (server.notification notification).1.Current encoding
        (messages ++ [.notification notification]) ∧
      Meets encoding messages (.notification notification)
        ((server.notification notification).2.map .published) := by
  cases notification with
  | didOpen uri text version =>
    refine h.stores ⟨text, version⟩ rfl rfl ?_
    unfold Server.notification
    rw [h.linter]
    rfl
  | didChange uri version contentChanges =>
    cases hlast : contentChanges.getLast? with
    | none =>
      have htells :
          (Message.notification (.didChange uri version contentChanges)).tells = none := by
        simp only [Message.tells, hlast, Option.map_none]
      simp only [Server.notification, hlast]
      exact ⟨h.untold htells, .untold htells⟩
    | some text =>
      have htells : (Message.notification (.didChange uri version contentChanges)).tells =
          some (uri, some ⟨text, version⟩) := by
        simp only [Message.tells, hlast, Option.map_some]
      refine h.stores ⟨text, version⟩ htells rfl ?_
      -- An update leaves nothing of the document before.
      simp only [Server.notification, hlast, h.linter]
      cases server.documents[uri]? <;> rfl
  | didClose uri =>
    have htells : (Message.notification (.didClose uri)).tells = some (uri, none) := rfl
    exact ⟨h.erase htells, .told htells⟩
  | exit | other => exact ⟨h.untold rfl, .untold rfl⟩

theorem Current.dispatch (h : server.Current encoding messages) {call : Call}
    (hcall : call ≠ .shutdown) :
    ∃ result, server.dispatch call = some result ∧
      Answers (current messages) encoding call result := by
  cases call with
  | query uri query =>
    have hdocument := h.document uri
    cases hopen : current messages uri with
    | none =>
      rw [hopen, Option.map_none] at hdocument
      refine ⟨.ok .null, ?_, .unopened hopen⟩
      simp only [Server.dispatch, hdocument]
    | some revision =>
      obtain ⟨result, hresult⟩ := revision.answers query uri encoding
      rw [hopen, Option.map_some] at hdocument
      refine ⟨result, ?_, .query hopen hresult⟩
      simp only [Server.dispatch, hdocument, h.encoding, hresult]
  | malformed method error => exact ⟨_, rfl, .malformed⟩
  | shutdown => exact absurd rfl hcall
  | unknown method => exact ⟨_, rfl, .unknown⟩

theorem Current.request (h : server.Current encoding messages) {asked : Request}
    (hcall : asked.call ≠ .shutdown) :
    ∃ response, server.request asked = some response ∧
      Meets encoding messages (.request asked) [.response response] := by
  obtain ⟨result, hresult, hanswers⟩ := h.dispatch hcall
  refine ⟨⟨asked.id, result⟩, ?_, .request hanswers⟩
  unfold Server.request
  rw [hresult, Option.map_some]

section Connected
variable {connection : Connection} {sent : List Sent}

/-- The loop goes on after a request that is answered, if the answer can be sent. -/
theorem run_request (hconnection : connection.Documented) {asked : Request} {response : Response}
    (hcall : asked.call ≠ .shutdown) (h : server.request asked = some response)
    (rest : List Message) :
    server.run connection sent (.request asked :: rest) =
      match connection.sendAll sent [.response response] with
      | (sent, .error error) => (sent, .failed error rest)
      | (sent, .ok ()) => server.run connection sent rest := by
  rw [Server.run, hconnection.other sent asked rest hcall]
  simp only [h, List.drop_zero, Connection.sendAll]
  cases connection.send sent (.response response) <;> rfl

theorem run_shutdown (hconnection : connection.Documented) (server : Server) (sent : List Sent)
    (id : RequestId) (rest : List Message) :
    (server.run connection sent (.request ⟨id, .shutdown⟩ :: rest)).1 =
        (connection.sendAll sent [.response ⟨id, .ok .null⟩]).1 ∧
      Ends rest (server.run connection sent (.request ⟨id, .shutdown⟩ :: rest)).2 := by
  obtain ⟨houtcome, hanswered⟩ := hconnection.shutdown sent id rest
  rw [Server.run]
  rcases hhandled : connection.handleShutdown sent ⟨id, .shutdown⟩ rest with
    ⟨outcome, answered, received⟩
  rw [hhandled] at houtcome hanswered
  cases outcome with
  | error error => exact ⟨hanswered, .failed error received⟩
  | ok handled =>
    cases handled with
    | true => exact ⟨hanswered, .shutDown received⟩
    | false => exact absurd rfl houtcome

theorem Current.run (hconnection : connection.Documented) (h : server.Current encoding messages)
    (later : List Message) :
    Session connection encoding messages sent later (server.run connection sent later).1
      (server.run connection sent later).2 := by
  induction later generalizing server messages sent with
  | nil =>
    rw [Server.run]
    exact .waiting
  | cons message later ih =>
    cases message with
    | request asked =>
      by_cases hcall : asked.call = .shutdown
      · obtain ⟨id, call⟩ := asked
        cases hcall
        obtain ⟨hanswered, hends⟩ := run_shutdown hconnection server sent id later
        rw [hanswered]
        exact .shutDown hends
      · obtain ⟨response, hresponse, hmeets⟩ := h.request hcall
        have huntold : (Message.request asked).tells = none := rfl
        rw [run_request hconnection hcall hresponse]
        rcases hsends : connection.sendAll sent [.response response] with ⟨after, error | _⟩
        · exact .failed hmeets hsends
        · obtain rfl := connection.sendAll_ok hsends
          exact .exchange hmeets hsends (ih (h.untold huntold))
    | notification notification =>
      obtain ⟨hcurrent, hmeets⟩ := h.notification notification
      rw [Server.run]
      simp only
      rcases hsends : connection.sendAll sent ((server.notification notification).2.map .published)
        with ⟨after, error | _⟩
      · exact .failed hmeets hsends
      · obtain rfl := connection.sendAll_ok hsends
        exact .exchange hmeets hsends (ih hcurrent)
    | response =>
      have huntold : Message.response.tells = none := rfl
      have hnothing : connection.sendAll sent [] = (sent ++ [], .ok ()) := by
        rw [List.append_nil]
        rfl
      rw [Server.run]
      refine .exchange .response hnothing ?_
      rw [List.append_nil]
      exact ih (h.untold huntold)

end Connected

end Server

/-- The messages that are looked at: all of them, up to the request to shut down. -/
def heeded : List Message → List Message
  | [] => []
  | .request ⟨id, .shutdown⟩ :: _ => [.request ⟨id, .shutdown⟩]
  | message :: rest => message :: heeded rest

def Message.id? : Message → Option RequestId
  | .request asked => some asked.id
  | .notification _ | .response => none

def Sent.id? : Sent → Option RequestId
  | .response given => some given.id
  | .published _ => none

/-- The diagnostics that a client is to show for a document. -/
def Sent.published? : Sent → Option (Uri × PublishDiagnostics)
  | .published given => some (given.uri, given)
  | .response _ => none

theorem publication_uri (encoding : PositionEncoding) (uri : Uri) (told : Option Revision) :
    (publication encoding uri told).uri = uri := by
  cases told <;> rfl

/-- A message that is met is answered or not, and published as it tells. -/
theorem Meets.accounted {encoding : PositionEncoding} {earlier : List Message} {message : Message}
    {reply : List Sent} (h : Meets encoding earlier message reply) (rest : List Message) :
    heeded (message :: rest) = message :: heeded rest ∧
      reply.filterMap Sent.id? = message.id?.toList ∧
      reply.filterMap Sent.published? = (message.tells.map fun told =>
        (told.1, publication encoding told.1 told.2)).toList := by
  cases h with
  | request hanswers =>
    refine ⟨?_, rfl, rfl⟩
    cases hanswers <;> rfl
  | @told notification uri told htells =>
    refine ⟨rfl, rfl, ?_⟩
    rw [htells, Option.map_some, Option.toList_some]
    simp only [List.filterMap_cons, Sent.published?, publication_uri, List.filterMap_nil]
  | untold htells =>
    refine ⟨rfl, rfl, ?_⟩
    rw [htells]
    rfl
  | response => exact ⟨rfl, rfl, rfl⟩

/-- A reply is one thing at most: where it cannot be sent, nothing of it is. -/
theorem Meets.cut {connection : Connection} {encoding : PositionEncoding} {earlier : List Message}
    {message : Message} {sent reply after : List Sent} {error : String}
    (h : Meets encoding earlier message reply)
    (hfails : connection.sendAll sent reply = (after, .error error)) :
    after = sent ∧ ∃ given, connection.send sent given = .error error := by
  have hone : ∀ given, connection.sendAll sent [given] = (after, .error error) →
      after = sent ∧ ∃ given, connection.send sent given = .error error := by
    intro given hgiven
    rw [Connection.sendAll] at hgiven
    split at hgiven
    · rename_i hsend
      cases hgiven
      exact ⟨rfl, given, hsend⟩
    · cases hgiven
  cases h with
  | request _ => exact hone _ hfails
  | told _ => exact hone _ hfails
  | untold _ => cases hfails
  | response => cases hfails

/-- The messages that are met are all that are looked at, if nothing comes between. -/
theorem Session.accounted {connection : Connection} {encoding : PositionEncoding}
    {earlier messages : List Message} {sent after : List Sent} {loop : Server.Loop}
    (h : Session connection encoding earlier sent messages after loop) :
    ∃ met, met <+: heeded messages ∧
      after.filterMap Sent.id? = sent.filterMap Sent.id? ++ met.filterMap Message.id? ∧
      after.filterMap Sent.published? = sent.filterMap Sent.published? ++
        (history met).map (fun told => (told.1, publication encoding told.1 told.2)) ∧
      (met = heeded messages ∨ ∃ given error, connection.send after given = .error error) := by
  induction h with
  | waiting => exact ⟨[], List.nil_prefix, by simp, by simp [history], .inl rfl⟩
  | @shutDown earlier rest sent id loop hends =>
    rw [Connection.sendAll]
    cases hsend : connection.send sent (.response ⟨id, .ok .null⟩) with
    | error error => exact ⟨[], List.nil_prefix, by simp, by simp [history], .inr ⟨_, _, hsend⟩⟩
    | ok _ =>
      refine ⟨[.request ⟨id, .shutdown⟩], List.prefix_refl _, ?_, ?_, .inl rfl⟩
      · simp only [Connection.sendAll, List.filterMap_append]
        rfl
      · simp only [Connection.sendAll, List.filterMap_append]
        rfl
  | @exchange earlier rest message sent reply after loop hmeets hsends hrest ih =>
    obtain ⟨met, hmet, hids, hpublished, hall⟩ := ih
    obtain ⟨hheeded, hownIds, hown⟩ := hmeets.accounted rest
    rw [List.filterMap_append, hownIds] at hids
    rw [List.filterMap_append, hown] at hpublished
    rw [hheeded]
    refine ⟨message :: met, List.cons_prefix_cons.mpr ⟨rfl, hmet⟩, ?_, ?_, ?_⟩
    · rw [hids]
      cases hid : message.id? <;> simp [hid]
    · rw [hpublished]
      unfold history
      cases htells : message.tells <;> simp [htells]
    · exact hall.imp_left (congrArg (message :: ·))
  | failed hmeets hfails =>
    obtain ⟨rfl, given, hsend⟩ := hmeets.cut hfails
    exact ⟨[], List.nil_prefix, by simp, by simp [history], .inr ⟨given, _, hsend⟩⟩

/-- Every request that is met is answered once, and in turn; and for every document the diagnostics
that were published last are those of what was told of it last. Only where the connection cannot
send is anything not met that comes up to the request to shut down. -/
theorem run_accounted {connection : Connection} (hconnection : connection.Documented)
    (offered : Option (List String)) (messages : List Message) :
    let sent := ((Server.start offered).run connection [] messages).1
    ∃ met, met <+: heeded messages ∧
      sent.filterMap Sent.id? = met.filterMap Message.id? ∧
      (∀ uri, latest (sent.filterMap Sent.published?) uri =
        (latest (history met) uri).map (publication (.negotiate offered) uri)) ∧
      (met = heeded messages ∨ ∃ given error, connection.send sent given = .error error) := by
  obtain ⟨met, hmet, hids, hpublished, hall⟩ :=
    ((Server.start_current offered).run hconnection messages).accounted
  refine ⟨met, hmet, hids, fun uri => ?_, hall⟩
  rw [hpublished]
  exact latest_map (publication (.negotiate offered)) (history met) uri

theorem run_accounted_exit :
    let messages : List Message :=
      [.notification (.didOpen "a.mas".toList "Jump A\nA, Halt".toList 1),
        .request ⟨.inl 1, .query "a.mas".toList (.hover ⟨0, 5⟩)⟩, .request ⟨.inl 2, .shutdown⟩,
        .notification .exit]
    ((Server.start none).run .unbroken [] messages).1.filterMap Sent.id? = [.inl 1, .inl 2] := by
  intro messages
  obtain ⟨met, -, hids, -, hall⟩ := run_accounted Connection.unbroken_documented none messages
  rcases hall with rfl | ⟨given, error, hfails⟩
  · exact hids
  · cases hfails

end MarieRs.Lsp
