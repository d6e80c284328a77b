import Boring.IocpServer.WorkerLoop

/- PER_IO_CONTEXT and PER_SOCKET_CONTEXT, and the functions of CIocpModel that post an
   operation on a context or handle an accepted connection. -/
namespace IoContexts
open WorkerLoop

abbrev Socket := UInt32

def INVALID_SOCKET : Socket := 4294967295

def MAX_BUFFER_LEN : UInt32 := 8192

def sizeofSockaddrIn : UInt32 := 16

/-- The text of m_szBuffer up to its first zero byte, with the length in m_wsaBuf. -/
structure PerIoContext where
  sockAccept : Socket
  wsaBufLen : UInt32
  szBuffer : String
  opType : OperationType
  deriving DecidableEq, Repr

def newIoContext : PerIoContext := ⟨INVALID_SOCKET, MAX_BUFFER_LEN, "", .postedNull⟩

def resetBuffer (context : PerIoContext) : PerIoContext := { context with szBuffer := "" }

/-- An address as AcceptEx stores it, the port in network order and the bytes of the IP
    address from the lowest. -/
structure SockaddrIn where
  sinAddr : UInt32
  sinPort : UInt16
  deriving DecidableEq, Repr

structure PerSocketContext where
  socket : Socket
  clientAddr : SockaddrIn
  strIP : String
  usPort : UInt16
  arrayIoContext : List PerIoContext
  deriving DecidableEq, Repr

def newSocketContext : PerSocketContext := ⟨INVALID_SOCKET, ⟨0, 0⟩, "", 0, []⟩

/-- GetNewIoContext, with the members its caller then sets. -/
def addContext (client : PerSocketContext) (context : PerIoContext) : PerSocketContext :=
  { client with arrayIoContext := client.arrayIoContext ++ [context] }

def removeContext (client : PerSocketContext) (i : Nat) : PerSocketContext :=
  { client with arrayIoContext := client.arrayIoContext.eraseIdx i }

def inetNtoa (address : UInt32) : String :=
  let byte := fun i : UInt32 => toString ((address >>> (8 * i)) % 256).toNat
  byte 0 ++ "." ++ byte 1 ++ "." ++ byte 2 ++ "." ++ byte 3

def ntohs (port : UInt16) : UInt16 := (port <<< 8) ||| (port >>> 8)

def customHtml : String :=
  "<html>\r\n" ++
  "<head>\r\n" ++
  "<title></title>\r\n" ++
  "</head>\r\n" ++
  "<body>\r\n" ++
  "<p align=/\"center/\">欢迎访问我的主页</p>\r\n" ++
  "<h3 align=/\"center/\"><a href=Default.htm>快乐天地</a></h3>\r\n" ++
  "<p>结束</p>\r\n" ++
  "<p>　</p>\r\n" ++
  "</body></html>\r\n\r\n"

/-- The source file is GBK, two bytes for a character outside ASCII. -/
def strlen (text : String) : Nat := (text.toList.map fun c => if c.toNat < 128 then 1 else 2).sum

def response : String :=
  "HTTP/1.0 200 OK\r\n" ++
  "Server: MySocket Server\r\n" ++
  "Date: " ++ "16/07/14 09:31:00 GMT" ++ "\r\n" ++
  "Content-Type: text/html\r\n" ++
  "Accept-Encoding: gzip, deflate\r\n" ++
  "Accept-Ranges: bytes\r\n" ++
  "Content-Length: " ++ toString (strlen customHtml) ++ "\r\n\r\n" ++ customHtml

/-- What the Win32 calls return: the socket of WSASocket, and whether AcceptEx and WSARecv
    succeed or are pending. The result of WSASend is not looked at. -/
structure Calls where
  wsaSocket : Socket
  acceptEx : Bool
  wsaRecv : Bool
  deriving DecidableEq, Repr

def Succeed (calls : Calls) : Prop :=
  calls.wsaSocket ≠ INVALID_SOCKET ∧ calls.acceptEx = true ∧ calls.wsaRecv = true

instance (calls : Calls) : Decidable (Succeed calls) := inferInstanceAs (Decidable (_ ∧ _ ∧ _))

def postAccept (calls : Calls) (context : PerIoContext) : Bool × PerIoContext :=
  if context.sockAccept ≠ INVALID_SOCKET then (false, context)
  else
    let context := { context with opType := .postedAccept, sockAccept := calls.wsaSocket }
    if context.sockAccept = INVALID_SOCKET then (false, context)
    else (calls.acceptEx, { context with wsaBufLen := (sizeofSockaddrIn + 16) * 2 + 1 })

def postRecv (calls : Calls) (context : PerIoContext) : Bool × PerIoContext :=
  (calls.wsaRecv, { resetBuffer context with opType := .postedRecv })

structure Accepted where
  result : Bool
  context : PerIoContext
  client : PerSocketContext
  deriving DecidableEq, Repr

/-- The accepted socket goes to a new client with a send and a receive of its own, and the
    context of the accept is posted again. -/
def doAccpet (calls : Calls) (clientAddr : SockaddrIn) (context : PerIoContext) : Accepted :=
  let client := { newSocketContext with
    socket := context.sockAccept
    clientAddr
    strIP := inetNtoa clientAddr.sinAddr
    usPort := ntohs clientAddr.sinPort }
  let client := addContext client { newIoContext with
    opType := .postedSend
    sockAccept := client.socket
    szBuffer := response }
  let received := postRecv calls (resetBuffer { newIoContext with
    opType := .postedRecv
    sockAccept := client.socket })
  let client := addContext client received.2
  if received.1 = false then ⟨false, context, removeContext client 1⟩
  else
    let posted := postAccept calls (resetBuffer context)
    ⟨posted.1, posted.2, client⟩

def Armed (context : PerIoContext) : Prop :=
  context.sockAccept ≠ INVALID_SOCKET ∧ context.opType = .postedAccept

theorem post_opened {calls : Calls} (opens : calls.wsaSocket ≠ INVALID_SOCKET) :
    ∃ context, postAccept calls newIoContext = (calls.acceptEx, context) ∧ Armed context ∧
      context.sockAccept = calls.wsaSocket := by
  let context := { newIoContext with
    opType := .postedAccept
    sockAccept := calls.wsaSocket
    wsaBufLen := (sizeofSockaddrIn + 16) * 2 + 1 }
  refine ⟨context, ?_, ⟨opens, rfl⟩, rfl⟩
  simp [postAccept, newIoContext, context, opens]

theorem post_unopened {calls : Calls} (none : calls.wsaSocket = INVALID_SOCKET) :
    ∃ context, postAccept calls newIoContext = (false, context) ∧
      context.sockAccept = INVALID_SOCKET := by
  refine ⟨{ newIoContext with opType := .postedAccept }, ?_, rfl⟩
  simp [postAccept, newIoContext, none]

theorem post_new {calls : Calls} (ok : Succeed calls) :
    (postAccept calls newIoContext).1 = true ∧ Armed (postAccept calls newIoContext).2 := by
  obtain ⟨socket, accept, _⟩ := ok
  obtain ⟨context, posted, armed, _⟩ := post_opened socket
  rw [posted]
  exact ⟨accept, armed⟩

theorem post_armed {calls : Calls} {context : PerIoContext} (armed : Armed context) :
    postAccept calls context = (false, context) := by
  unfold postAccept
  rw [if_pos armed.1]

/-- _DoAccpet clears the buffer of its context and not the socket, so it posts nothing. -/
theorem doAccpet_refused {calls : Calls} {clientAddr : SockaddrIn} {context : PerIoContext}
    (armed : Armed context) : (doAccpet calls clientAddr context).result = false ∧
      Armed (doAccpet calls clientAddr context).context := by
  have kept : Armed (resetBuffer context) := armed
  by_cases received : calls.wsaRecv = false
  · simp [doAccpet, postRecv, received, armed]
  · simp only [doAccpet, postRecv, received, post_armed kept]
    exact ⟨rfl, kept⟩

theorem doAccpet_shares {calls : Calls} {clientAddr : SockaddrIn} {context : PerIoContext}
    (armed : Armed context) :
    (doAccpet calls clientAddr context).context.sockAccept = context.sockAccept ∧
    (doAccpet calls clientAddr context).client.socket = context.sockAccept ∧
    ∀ x ∈ (doAccpet calls clientAddr context).client.arrayIoContext,
      x.sockAccept = context.sockAccept := by
  have refused := @post_armed calls (resetBuffer context) armed
  by_cases received : calls.wsaRecv = false
  · simp [doAccpet, postRecv, received, addContext, removeContext, newSocketContext]
  · simp only [doAccpet, postRecv, received, refused]
    simp [addContext, newSocketContext, resetBuffer]

end IoContexts
