import MarieRs.Lib.Latest
import MarieRs.Lsp.Actions
import MarieRs.Lsp.Completion
import MarieRs.Lsp.Hints
import MarieRs.Lsp.Hover
import MarieRs.Lsp.Symbols

namespace MarieRs.Lsp

open Lint (Linter)

/-- A document and the version of its text that the client last sent. -/
structure OpenDocument extends LintedDocument where
  version : Int

namespace OpenDocument

def new (text : Str) (version : Int) (linter : Linter) : OpenDocument :=
  { LintedDocument.new text linter with version }

/-- Replaces the text and analyses it again. -/
def update (document : OpenDocument) (text : Str) (version : Int) (linter : Linter) :
    OpenDocument :=
  let outcome := linter.check text
  { document with
    assembly := outcome.assembly, findings := outcome.diagnostics, text := text,
    version := version }

end OpenDocument

namespace PositionEncoding

/-- The best encoding that the client will accept. Every client accepts UTF-16. -/
def negotiate : Option (List String) → PositionEncoding
  | none => .utf16
  | some offered =>
    if offered.contains "utf-8" then .utf8
    else if offered.contains "utf-32" then .utf32
    else .utf16

end PositionEncoding

/-- What can be asked about a document. -/
inductive Query where
  | hover (position : Position)
  | gotoDefinition (position : Position)
  | references (position : Position) (includeDeclaration : Bool)
  | documentHighlight (position : Position)
  | prepareRename (position : Position)
  | rename (position : Position) (newName : Str)
  | documentSymbol
  | completion (position : Position)
  | semanticTokensFull
  | inlayHint (range : Range)
  | codeAction (range : Range)

/-- What the method and the parameters of a request come to. -/
inductive Call where
  | query (uri : Uri) (query : Query)
  /-- The parameters are not those of the method. -/
  | malformed (method error : String)
  | shutdown
  | unknown (method : String)

abbrev RequestId := Int ⊕ String

structure Request where
  id : RequestId
  call : Call

/-- The notifications that the server listens to; parameters that are not those of the method are
as good as any other. The texts of a change each replace the whole document. -/
inductive Notification where
  | didOpen (uri : Uri) (text : Str) (version : Int)
  | didChange (uri : Uri) (version : Int) (contentChanges : List Str)
  | didClose (uri : Uri)
  /-- For the connection, after a request to shut down. -/
  | exit
  | other

inductive Message where
  | request (request : Request)
  | notification (notification : Notification)
  | response

/-- What a request is answered with. -/
inductive Value where
  | null
  | hover (hover : Hover)
  | location (location : Location)
  | locations (locations : List Location)
  | highlights (highlights : List DocumentHighlight)
  | prepared (prepared : PrepareRenameResponse)
  | edit (edit : WorkspaceEdit)
  | symbols (symbols : List DocumentSymbol)
  | completions (items : List CompletionItem)
  | tokens (tokens : List SemanticToken)
  | hints (hints : List InlayHint)
  | actions (actions : List CodeAction)

/-- An error is that the request failed, and why. -/
structure Response where
  id : RequestId
  result : Except String Value

/-- The findings in a document, and of which version. -/
structure PublishDiagnostics where
  uri : Uri
  diagnostics : List Diagnostic
  version : Option Int

inductive Sent where
  | response (response : Response)
  | published (published : PublishDiagnostics)

/-- The feature that answers a query; none if it panics. -/
def Query.answer (document : OpenDocument) (uri : Uri) (encoding : PositionEncoding) :
    Query → Option (Except String Value)
  | .hover position =>
    some (.ok ((Lsp.hover document.toDocument position encoding).elim .null .hover))
  | .gotoDefinition position =>
    some (.ok ((definition document.toDocument uri position encoding).elim .null .location))
  | .references position includeDeclaration =>
    some (.ok ((Lsp.references document.toDocument uri position encoding includeDeclaration).elim
      .null .locations))
  | .documentHighlight position =>
    some (.ok ((highlight document.toDocument position encoding).elim .null .highlights))
  | .prepareRename position =>
    some (.ok ((Lsp.prepareRename document.toDocument position encoding).elim .null .prepared))
  | .rename position newName =>
    some ((Lsp.rename document.toDocument uri position newName encoding).map fun edit =>
      edit.elim .null .edit)
  | .documentSymbol => some (.ok (.symbols (documentSymbols document.toDocument encoding)))
  | .completion position =>
    (Lsp.completion document.toDocument position encoding).map fun items => .ok (.completions items)
  | .semanticTokensFull =>
    (semanticTokens document.toDocument encoding).map fun tokens => .ok (.tokens tokens)
  | .inlayHint range => some (.ok (.hints (inlayHints document.toDocument range encoding)))
  | .codeAction range =>
    some (.ok (.actions (codeActions document.toLintedDocument uri range encoding)))

/-- The state of the server. -/
structure Server where
  documents : Std.HashMap Uri OpenDocument
  linter : Linter
  encoding : PositionEncoding

namespace Server

def new : Server := ⟨∅, Linter.new, .utf16⟩

/-- The server at the start of `run`. -/
def start (offered : Option (List String)) : Server :=
  { new with encoding := .negotiate offered }

/-- Routes a request to its feature. To be asked about a file that was never opened is no error. -/
def dispatch (server : Server) : Call → Option (Except String Value)
  | .query uri query =>
    match server.documents[uri]? with
    | some document => query.answer document uri server.encoding
    | none => some (.ok .null)
  | .malformed method error => some (.error ("bad params for " ++ method ++ ": " ++ error))
  | .shutdown | .unknown _ => some (.ok .null)

/-- Answers a request. -/
def request (server : Server) (request : Request) : Option Response :=
  (server.dispatch request.call).map fun result => ⟨request.id, result⟩

/-- The diagnostics of one document. -/
def publish (server : Server) (uri : Uri) : List PublishDiagnostics :=
  match server.documents[uri]? with
  | some document =>
    [⟨uri, diagnostics document.toLintedDocument uri server.encoding, some document.version⟩]
  | none => []

/-- Handles a notification, with any diagnostics to publish. -/
def notification (server : Server) : Notification → Server × List PublishDiagnostics
  | .didOpen uri text version =>
    let server := { server with
      documents := server.documents.insert uri (.new text version server.linter) }
    (server, server.publish uri)
  | .didChange uri version contentChanges =>
    match contentChanges.getLast? with
    | none => (server, [])
    | some text =>
      let document :=
        match server.documents[uri]? with
        | some document => document.update text version server.linter
        | none => .new text version server.linter
      let server := { server with documents := server.documents.insert uri document }
      (server, server.publish uri)
  | .didClose uri =>
    ({ server with documents := server.documents.erase uri }, [⟨uri, [], none⟩])
  | .exit | .other => (server, [])

end Server

/-- The connection to a client, after all that was sent over it. -/
structure Connection where
  /-- Sends one thing more, or fails. -/
  send : List Sent → Sent → Except String Unit
  /-- Whether a request was to shut down, and is handled; what was sent by then; and how many more
  messages were received. -/
  handleShutdown : List Sent → Request → List Message → Except String Bool × List Sent × Nat

/-- One thing after the other, up to one that cannot be sent. -/
def Connection.sendAll (connection : Connection) (sent : List Sent) :
    List Sent → List Sent × Except String Unit
  | [] => (sent, .ok ())
  | given :: rest =>
    match connection.send sent given with
    | .error error => (sent, .error error)
    | .ok () => connection.sendAll (sent ++ [given]) rest

namespace Server

/-- Where the loop is when it has no more messages, or does not look at the rest of them. -/
inductive Loop where
  | waiting (server : Server)
  | shutDown (rest : List Message)
  | failed (error : String) (rest : List Message)
  | panicked (rest : List Message)

/-- The loop, until the client asks to shut down or the connection fails: all that was sent, and
where the loop is. -/
def run (connection : Connection) (server : Server) (sent : List Sent) :
    List Message → List Sent × Loop
  | [] => (sent, .waiting server)
  | .request asked :: rest =>
    match connection.handleShutdown sent asked rest with
    | (.error error, sent, received) => (sent, .failed error (rest.drop received))
    | (.ok true, sent, received) => (sent, .shutDown (rest.drop received))
    | (.ok false, sent, received) =>
      match server.request asked with
      | none => (sent, .panicked (rest.drop received))
      | some response =>
        match connection.send sent (.response response) with
        | .error error => (sent, .failed error (rest.drop received))
        | .ok () =>
          run connection server (sent ++ [.response response]) (rest.drop received)
  | .notification told :: rest =>
    let (server, published) := server.notification told
    match connection.sendAll sent (published.map .published) with
    | (sent, .error error) => (sent, .failed error rest)
    | (sent, .ok ()) => run connection server sent rest
  | .response :: rest => run connection server sent rest
termination_by messages => messages.length
decreasing_by
  all_goals simp only [List.length_cons, List.length_drop]
  all_goals omega

end Server

end MarieRs.Lsp
