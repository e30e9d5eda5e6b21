import Drt.Net.Rpc.RpcEncoder

/-!
# Answering a call

`RpcServer`: how `run` answers one request. The handler of the method writes to the
encoder that a failure is then reported with, behind whatever the handler has written.
So a failure is answered by one fault exactly when the handler has written nothing.
-/

namespace Drt

/-- `append` of a `String`. -/
def DrString.append (s s' : DrString) : DrString :=
  if s'.text = [] then s
  else if s.text = [] then s'
  else match s, s' with
    | .bytes b, .bytes b' => .bytes (b ++ b')
    | s, s' => .wide (s.text ++ s'.text)

/-- How a handler comes back. -/
inductive HandlerEnd where
  | returns (error : Int32)
  /-- An exception, with what its `stringify` gives. -/
  | throws (stringify : DrString)
  deriving DecidableEq, Repr

/-- The handler of a method: any code that writes to the encoder. -/
structure RpcHandler where
  run : RpcEncoder → RpcEncoder × HandlerEnd
  /-- The encoder is only written to. -/
  extends_run : ∀ e : RpcEncoder, e.Extends (run e).1

/-- The methods of an `RpcServer`, with their handlers. -/
structure RpcServer where
  getMethodWrappers : List (DrString × RpcHandler)

namespace RpcServer

open RpcEncoder

/-- The encoder `run` makes, for the header "accept" and the body of a request. -/
def createEncoder (accept : Option DrString) (body : Blob) (struct_clean : Bool) : RpcEncoder :=
  let accepted : Bool := match accept with
    | some accept => decide (ascii "application/x-frpc" <:+: accept.utf8)
    | none => false
  if accepted ∨ body.take 2 = [0xCA, 0x11] then fastRpc .new else xmlRpc (.new struct_clean)

/-- `getMethodWrappers()->findPtr(method)`. -/
def findPtr (server : RpcServer) (method : DrString) : Option RpcHandler :=
  (server.getMethodWrappers.find? fun m => m.1.text = method.text).map Prod.snd

def processUnknownMethod (encoder : RpcEncoder) : RpcEncoder :=
  encoder.writeHeader.writeFaultResponse 400 (.bytes (ascii "Unknown method"))

/-- The message of `processException`. -/
def exceptionMessage (stringify : DrString) : DrString :=
  (DrString.bytes (ascii "method failed: ")).append stringify

def processException (encoder : RpcEncoder) (stringify : DrString) : RpcEncoder :=
  encoder.writeHeader.writeFaultResponse 1 (exceptionMessage stringify)

def processFailure (encoder : RpcEncoder) (fault_code : Int32) : RpcEncoder :=
  encoder.writeHeader.writeFaultResponse fault_code.toInt64 (.bytes (ascii "method failed"))

/-- The part of `run` from the call of the method on. -/
def callMethod (server : RpcServer) (encoder : RpcEncoder) (method : DrString) : RpcEncoder :=
  match server.findPtr method with
  | some func_handler =>
    match func_handler.run encoder with
    | (encoder, .returns error) => if error ≠ 0 then processFailure encoder error else encoder
    | (encoder, .throws stringify) => processException encoder stringify
  | none => processUnknownMethod encoder

/-- The argument of `sendContent`, for a request that was decoded. -/
def contentSent (server : RpcServer) (accept : Option DrString) (body : Blob)
    (struct_clean : Bool) (method : DrString) : Blob :=
  (server.callMethod (createEncoder accept body struct_clean) method).getContent

def startResultArray (result : RpcEncoder) (array_cnt : Nat) : RpcEncoder :=
  result.writeHeader.writeMethodResponse.writeArrayLength (.ofNat array_cnt)

def endResultArray (result : RpcEncoder) : RpcEncoder := result.writeArrayEnd.writeResponseEnd

def startResultStruct (result : RpcEncoder) (member_cnt : Nat) : RpcEncoder :=
  result.writeHeader.writeMethodResponse.writeStructLength (.ofNat member_cnt)

def endResultStruct (result : RpcEncoder) : RpcEncoder := result.writeStructEnd.writeResponseEnd

def writeEmptyResult (result : RpcEncoder) : RpcEncoder :=
  endResultStruct (startResultStruct result 0)

/-- `execute_system_listMethods` for these methods. -/
def execute_system_listMethods (methods : List DrString) (result : RpcEncoder) : RpcEncoder :=
  endResultArray (methods.foldl writeString (startResultArray result methods.length))

theorem getContent_createEncoder (accept : Option DrString) (body : Blob) (struct_clean : Bool) :
    (createEncoder accept body struct_clean).getContent = [] := by
  unfold createEncoder
  dsimp only
  split_ifs <;> rfl

/-- The strings of a list are written as the elements of an array. -/
theorem writesElements_foldl (format : RpcFormat) (strings : List DrString) (e : RpcEncoder) :
    WritesElements format strings.length e (strings.foldl writeString e) := by
  induction strings generalizing e with
  | nil => exact .nil e
  | cons s strings ih => exact .cons (.string e s) (ih _)

theorem writesResponse_listMethods (format : RpcFormat) (methods : List DrString)
    (e : RpcEncoder) : WritesResponse format e (execute_system_listMethods methods e) :=
  .value (.array (writesElements_foldl format methods _))

/-- The handler of a method that gives a response without failing. -/
def ofResponse (format : RpcFormat) (write : RpcEncoder → RpcEncoder)
    (h : ∀ e, WritesResponse format e (write e)) : RpcHandler where
  run e := (write e, .returns 0)
  extends_run e := (h e).extends

/-- What is sent for a call is one response: the one of the handler, or a header and the fault for
the way the call has failed. -/
def SendsOneResponse (format : RpcFormat) (server : RpcServer) (accept : Option DrString)
    (body : Blob) (struct_clean : Bool) (method : DrString) : Prop :=
  let encoder := createEncoder accept body struct_clean
  let sent := server.contentSent accept body struct_clean method
  let fault (code : Int64) (message : DrString) : Blob :=
    (encoder.writeHeader.writeFaultResponse code message).getContent
  match server.findPtr method with
  | some func_handler =>
    match (func_handler.run encoder).2 with
    | .returns error =>
      if error ≠ 0 then sent = fault error.toInt64 (.bytes (ascii "method failed"))
      else ∃ e, WritesResponse format encoder e ∧ sent = e.getContent
    | .throws stringify => sent = fault 1 (exceptionMessage stringify)
  | none => sent = fault 400 (.bytes (ascii "Unknown method"))

/-- The handler of a method, if it succeeds, has written a complete response. -/
def CompletesSuccess (format : RpcFormat) (server : RpcServer) (accept : Option DrString)
    (body : Blob) (struct_clean : Bool) (method : DrString) : Prop :=
  let encoder := createEncoder accept body struct_clean
  ∀ func_handler, server.findPtr method = some func_handler →
    (func_handler.run encoder).2 = .returns 0 →
    WritesResponse format encoder (func_handler.run encoder).1

/-- The handler of a method, if it fails, has written nothing. -/
def FailsSilently (server : RpcServer) (accept : Option DrString) (body : Blob)
    (struct_clean : Bool) (method : DrString) : Prop :=
  let encoder := createEncoder accept body struct_clean
  ∀ func_handler, server.findPtr method = some func_handler →
    (func_handler.run encoder).2 ≠ .returns 0 → (func_handler.run encoder).1.getContent = []

/-- The fault that is sent stands behind what the handler has written. -/
theorem fault_eq_iff {encoder encoder' : RpcEncoder} (hempty : encoder.getContent = [])
    (h : encoder.Extends encoder') (code : Int64) (message : DrString) :
    (encoder'.writeHeader.writeFaultResponse code message).getContent =
        (encoder.writeHeader.writeFaultResponse code message).getContent ↔
      encoder'.getContent = [] := by
  rw [getContent_fault, getContent_fault, faultOctets_congr h.protocol, hempty]
  exact List.append_left_inj _

/-- Exactly one response is sent for a call whose handler, if it fails, has written nothing. -/
theorem sendsOneResponse_iff (format : RpcFormat) (server : RpcServer) (accept : Option DrString)
    (body : Blob) (struct_clean : Bool) (method : DrString)
    (hcomplete : server.CompletesSuccess format accept body struct_clean method) :
    server.SendsOneResponse format accept body struct_clean method ↔
      server.FailsSilently accept body struct_clean method := by
  have hempty := getContent_createEncoder accept body struct_clean
  unfold SendsOneResponse FailsSilently contentSent callMethod
  unfold CompletesSuccess at hcomplete
  generalize createEncoder accept body struct_clean = encoder at hempty hcomplete ⊢
  cases hfind : server.findPtr method with
  | none =>
    refine iff_of_true rfl fun func_handler hsome => ?_
    cases hsome
  | some func_handler =>
    have hextends := func_handler.extends_run encoder
    have hsuccess := hcomplete func_handler hfind
    rcases hrun : func_handler.run encoder with ⟨encoder', stop⟩
    rw [hrun] at hextends hsuccess
    simp only [Option.some.injEq, forall_eq', hrun]
    cases stop with
    | returns error =>
      by_cases herror : error = 0
      · subst herror
        simp only [ne_eq, not_true_eq_false, if_false, false_implies, iff_true]
        exact ⟨encoder', hsuccess rfl, rfl⟩
      · simp only [ne_eq, herror, not_false_eq_true, if_true, HandlerEnd.returns.injEq,
          true_implies]
        exact fault_eq_iff hempty hextends _ _
    | throws stringify =>
      simp only [ne_eq, reduceCtorEq, not_false_eq_true, true_implies]
      exact fault_eq_iff hempty hextends _ _

/-- A handler that starts the response with the length of a struct and then fails. -/
def startsAndFails : RpcHandler where
  run e := (startResultStruct e 1, .returns 5)
  extends_run e :=
    (Extends.writeHeader e).trans <| (Extends.writeMethodResponse _).trans <|
      .writeStructLength _ _

/-- A server with one method, which lists the methods. -/
theorem sendsOneResponse_iff_listMethods :
    let format : RpcFormat := ⟨fun _ => ⟨0, 0, 0, 0, 0, 0⟩, id, fun _ => []⟩
    let method : DrString := .bytes (ascii "system.listMethods")
    let server : RpcServer := ⟨[(method, ofResponse format (execute_system_listMethods [method])
      (writesResponse_listMethods format [method]))]⟩
    server.SendsOneResponse format none [] false method ↔
      server.FailsSilently none [] false method := by
  refine sendsOneResponse_iff _ _ _ _ _ _ fun func_handler hfind _ => ?_
  obtain rfl := Option.some.inj hfind
  exact writesResponse_listMethods _ [.bytes (ascii "system.listMethods")] _

/-- The fault stands behind the start of the response. -/
theorem not_sendsOneResponse_startsAndFails :
    let method : DrString := .bytes (ascii "add")
    let server : RpcServer := ⟨[(method, startsAndFails)]⟩
    ∀ format, server.CompletesSuccess format none [0xCA, 0x11] false method ∧
      ¬ server.SendsOneResponse format none [0xCA, 0x11] false method := by
  intro method server format
  refine ⟨fun func_handler hfind hsuccess => ?_, fun hsent => ?_⟩
  · obtain rfl := Option.some.inj hfind
    cases hsuccess
  · have hne : server.contentSent none [0xCA, 0x11] false method ≠
        (processFailure (createEncoder none [0xCA, 0x11] false) 5).getContent := by
      decide
    exact hne hsent

end RpcServer

end Drt
