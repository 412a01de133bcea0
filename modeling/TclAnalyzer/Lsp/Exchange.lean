import TclAnalyzer.Lsp.Encoding
import TclAnalyzer.Lsp.Framing

/-!
# A client and the server over two pipes

What a client writes goes through `read_message`, the loop over the messages and `send_message`, and
comes back to the client as bytes. The JSON library is a parameter, with the value that it stands for.
-/

namespace TclAnalyzer

/-- An exchange: the client frames its messages as it likes, the pipes cut the bytes as they like, and
the server sends one frame after the other. The loop has taken some of the messages, or all, and each of
its frames is a value of the library. -/
structure Exchange (interp : TclInterp) {W : Type} (lib : JsonLib W) (view : W → Json) where
  messages : List Message
  fits : ∀ m ∈ messages, m.Fits
  sent : List (FrameStyle × W)
  encoded : List.Forall₂ (fun message m => m.Encodes (view message.2)) sent messages
  input : List Str
  written : input.flatten = styledFrames lib sent
  history : List DispatchEvent
  loop : Dispatcher
  dispatched : Run (DispatchStep interp) .initial history loop
  taken : receivedJson history <+: (readMessages lib input).1.map view
  sends : List (SendEvent W)
  out : Output
  sending : Run (SendStep lib) .idle sends out
  handed : (sentMessages sends).map view = loop.out
  serial : Serial sends
  complete : out.writes = []
  output : List Str
  delivered : output.flatten = out.out

variable {interp : TclInterp} {W : Type} {lib : JsonLib W} {view : W → Json}

/-- The messages as the server knows them. -/
def Exchange.numbered (x : Exchange interp lib view) : List Message :=
  x.messages.zipIdx.map fun (m, n) => m.renumber n

/-- The frames that come back, in order, with the numbers of the messages that they respond to in a run
of the server. -/
structure Exchange.Responds (x : Exchange interp lib view) (events : List ServerEvent)
    (responses : List (Nat × Json)) : Prop where
  run : Run (ServerStep interp) .initial events x.loop.server
  received : receivedMessages events <+: x.numbered
  goesOn : x.loop.status.goesOn = true →
    receivedMessages events = x.numbered.take (receivedJson x.history).length
  frames : ∃ replies, readMessages lib x.output = (replies, .ok ()) ∧
    replies.map view = responses.map Prod.snd
  inOrder : (responses.map Prod.fst).Pairwise (· < ·)
  /-- Each carries the id of its request and what the server replies to it. -/
  responds : ∀ n frame, (n, frame) ∈ responses ↔ ∃ request tree reply,
    x.messages[n]? = some (.request request) ∧
      .reply { request with id := n } tree reply ∈ events ∧
      frame = responseMessage (.unsigned request.id) reply.toJson

end TclAnalyzer
