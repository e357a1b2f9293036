import Spider.Escapes
import Spider.Lib.Run
import Spider.Threadprivdata

/-!
# The logger

`init_logger` reads from `logger.conf` which levels are logged to the console and to which
files, `spd_log` writes a message wherever its level is logged, and `spd_verbose` gives a text
to every verboser first. What is configured is kept in masks of bits, what is written is put
together in a string of the thread, and what is logged on the console goes to a terminal.
-/

namespace Spider.Logger

open Lib Outcome CString Strings Terminal Escapes
open Threadprivdata (SpdDynamicStr helper spdDynamicStrGet grown SPD_DNMCSTR_BUILD_FAILEDD
  SPD_DNMCSTR_BUILD_RETRY)

/-! ## Levels -/

/-- The levels (`logger.h:29-62`). -/
inductive Level where
  | debug
  | notice
  | warning
  | error
  | verbose
  deriving DecidableEq, Repr

/-- `__LOG_DEBUG` to `__LOG_VERBOSE`. -/
def Level.number : Level → Nat
  | .debug => 0
  | .notice => 1
  | .warning => 2
  | .error => 3
  | .verbose => 4

/-- `loglevels` (`logger.c:43-49`). -/
def Level.name : Level → CString
  | .debug => lit "DEBUG"
  | .notice => lit "NOTICE"
  | .warning => lit "WARNING"
  | .error => lit "ERROR"
  | .verbose => lit "VERBOSE"

/-- `colors` (`logger.c:51-59`). -/
def Level.color : Level → Nat
  | .debug => COLOR_BRGREEN
  | .notice => COLOR_BRBLUE
  | .warning => COLOR_YELLOW
  | .error => COLOR_BRRED
  | .verbose => COLOR_RED

/-- The level that a word of the configuration is for (`logger.c:124-133`). -/
def keyword (w : CString) : Option Level :=
  if strcasecmp w (lit "error") = 0 then some .error
  else if strcasecmp w (lit "warning") = 0 then some .warning
  else if strcasecmp w (lit "notice") = 0 then some .notice
  else if strcasecmp w (lit "debug") = 0 then some .debug
  else if strcasecmp w (lit "verbose") = 0 then some .verbose
  else none

/-- One turn of the loop of `make_components`: the mask, and the warnings. -/
def component (lineno : Nat) (res : Nat × List CString) (w : CString) : Nat × List CString :=
  let w := spdStrip w
  if spdStrlenZero (some w) then res
  else
    match keyword w with
    | some level => (res.1 ||| 1 <<< level.number, res.2)
    | none => (res.1, res.2 ++ [lit "Logfile Warning: Unknown keyword '" ++ w ++
        lit "' at line " ++ dec lineno ++ lit " of logger.conf\n"])

/-- `make_components` (`logger.c:112-140`); `strsep` gives the words between the commas. -/
def makeComponents (s : CString) (lineno : Nat) : Nat × List CString :=
  (s.splitOnP (· = ch ',')).foldl (component lineno) (0, [])

/-! ## Chains -/

/-- `enum spd_logtype`; no chain becomes a `LOGTYPE_SYSLOG`. -/
inductive Logtype where
  | file
  | console
  deriving DecidableEq, Repr

/-- `struct spd_logchain`; `fptr` tells whether there is an open file. -/
structure Logchain where
  type : Logtype
  logmark : Nat
  fptr : Bool
  filename : CString
  deriving DecidableEq, Repr

/-- What is written to. -/
inductive Sink where
  | stdout
  | stderr
  | file (name : CString)
  | verboser (f : Nat)
  deriving DecidableEq, Repr

/-- The logger, with the files that are open, the strings of the threads, and what has been
    written; `handler` says whether `SIGXFSZ` is handled. -/
structure St where
  chains : List Logchain
  hostname : CString
  handler : Bool
  filesizeReloadNeed : Bool
  verbosers : List Nat
  handles : List CString
  logBuf : Nat → Option SpdDynamicStr
  verboseBuf : Nat → Option SpdDynamicStr
  out : List (Sink × CString)

def St.write (s : St) (sink : Sink) (texts : List CString) : St :=
  { s with out := s.out ++ texts.map (sink, ·) }

/-- `spd_true` (`utils.c:42-52`). -/
def spdTrue (s : CString) : Bool :=
  strcasecmp s (lit "yes") = 0 || strcasecmp s (lit "true") = 0 || strcasecmp s (lit "y") = 0 ||
    strcasecmp s (lit "t") = 0 || strcasecmp s (lit "1") = 0 || strcasecmp s (lit "on") = 0

/-- A variable of the section `logfiles`, and whether there is memory for its chain. -/
structure Logfile where
  name : CString
  value : CString
  lineno : Nat
  calloc : Bool

/-- What the calls for `logger.conf` give. -/
structure LoggerConf where
  appendhostname : Option CString
  logfiles : List Logfile

/-- What the system answers while the chains are made: whether a file can be opened, what
    `strerror` says if not, and the name of the host, if it can be found. -/
structure System where
  fopen : CString → Bool
  strerror : CString
  gethostname : Option CString

/-- `spd_config_SPD_LOG_DIR`. -/
def SPD_LOG_DIR : CString := lit "/var/log/spider"

/-- The path of a log file (`logger.c:159-165`). -/
def logPath (hostname channel : CString) : CString :=
  let dir := if channel.head? ≠ some (ch '/') then SPD_LOG_DIR else []
  let name := if spdStrlenZero (some hostname) then dir ++ lit "/" ++ channel
    else dir ++ lit "/" ++ channel ++ lit "." ++ hostname
  (snprintf 256 name).1

/-- `make_logchain` (`logger.c:142-176`): the chain, and what is written to `stderr`. -/
def makeLogchain (sys : System) (hostname : CString) (v : Logfile) :
    Option Logchain × List CString :=
  if spdStrlenZero (some v.name) || !v.calloc then (none, [])
  else
    let (logmark, warnings) := makeComponents v.value v.lineno
    if strncasecmp v.name (lit "console") 7 = 0 then (some ⟨.console, logmark, false, []⟩, warnings)
    else if strncasecmp v.name (lit "syslog") 6 = 0 then
      (some ⟨.file, logmark, false, []⟩, warnings)
    else
      let filename := logPath hostname v.name
      if sys.fopen filename then (some ⟨.file, logmark, true, filename⟩, warnings)
      else (some ⟨.file, logmark, false, filename⟩, (lit "Logger Warning: Unable to open log file '"
        ++ filename ++ lit "': " ++ sys.strerror ++ lit "\n") :: warnings)

/-- One turn of the loop over the section `logfiles` (`logger.c:211-218`). -/
def addLogchain (sys : System) (s : St) (v : Logfile) : St :=
  match makeLogchain sys s.hostname v with
  | (none, warnings) => s.write .stderr warnings
  | (some chain, warnings) =>
    { s.write .stderr warnings with
      chains := chain :: s.chains
      handles := if chain.fptr then chain.filename :: s.handles else s.handles }

/-- The name of the host, if it is to be appended (`logger.c:197-205`). -/
def hostnameOf (sys : System) (conf : LoggerConf) : CString :=
  match conf.appendhostname with
  | some s => if spdTrue s then sys.gethostname.getD (lit "unknown") else []
  | none => []

/-- `__LOG_WARNING | __LOG_NOTICE | __LOG_ERROR`. -/
def defaultMark : Nat := Level.warning.number ||| Level.notice.number ||| Level.error.number

/-- `init_logger_chain` (`logger.c:178-239`): the chains there were are freed, and those of
    `logger.conf` made, or one with the default settings, if there is memory for it. -/
def initLoggerChain (sys : System) (cfg : Option LoggerConf) (calloc : Bool) (s : St) : St :=
  let s := { s with chains := [] }
  match cfg with
  | some conf => conf.logfiles.foldl (addLogchain sys) { s with hostname := hostnameOf sys conf }
  | none =>
    let s := s.write .stderr [lit "Unable to open logger.conf , default setting will be used\n"]
    if calloc then { s with chains := [⟨.console, defaultMark, false, []⟩] } else s

/-- `init_logger` (`logger.c:241-248`). -/
def initLogger (sys : System) (cfg : Option LoggerConf) (calloc : Bool) (s : St) : St :=
  initLoggerChain sys cfg calloc { s with handler := true }

/-- `close_logger` (`logger.c:250-268`). -/
def closeLogger (s : St) : St :=
  { s with
    chains := s.chains.map fun chain => { chain with fptr := false }
    handles := s.handles.diff ((s.chains.filter Logchain.fptr).map Logchain.filename) }

/-! ## Messages -/

/-- A message, with its place in the source; `text` is what the format and its arguments make. -/
structure Message where
  level : Level
  file : CString
  line : Nat
  function : CString
  text : CString

/-- What a call finds: the thread that it is made in, whether there is memory for the strings of
    the thread and what is in it, the date, the id of the process, and whether a file can be
    written, with the reason if not. -/
structure Env where
  thread : Nat
  room : Bool
  memory : Threadprivdata.Env
  date : CString
  pid : Nat
  fprintf : CString → Bool
  noSpace : Bool
  strerror : CString

/-- `BUFSIZ`, `LOG_BUF_INIT_SIZE` and `VERBOSE_BUF_INIT_SIZE`. -/
def BUFSIZ : Nat := 8192

@[inherit_doc BUFSIZ] def LOG_BUF_INIT_SIZE : Nat := 128
@[inherit_doc BUFSIZ] def VERBOSE_BUF_INIT_SIZE : Nat := 128

/-- `buf`: the string of the thread, and whether the pointer to it is `NULL`, as it is after a
    failure (`threadprivdata.c:79`). -/
structure Buffer where
  str : SpdDynamicStr
  null : Bool
  deriving DecidableEq, Repr

/-- `spd_dynamic_str_get`: there is none if the thread has no string and there is no memory. -/
def getBuffer (env : Env) (old : Option SpdDynamicStr) (len : Nat) : Option Buffer :=
  if old.isNone && !env.room then none else some ⟨spdDynamicStrGet old len, false⟩

/-- `spd_thread_dynamic_str_set_helper`, also in `spd_dynamic_str_set`: whether the result is
    another than that of a failure, and the string. -/
def Buffer.set (env : Env) (fuel maxLen : Nat) (text : CString) (buf : Buffer) :
    Outcome (Bool × Buffer) :=
  if buf.null then .fault
  else do
    let (res, str) ← helper env.memory env.room maxLen false text fuel buf.str
    -- Without memory the length is set all the same, and the pointer is lost.
    .ok (res ≠ SPD_DNMCSTR_BUILD_FAILEDD, ⟨str, !env.room && str.len ≠ buf.str.len⟩)

/-- `buf->str`. -/
def Buffer.text (buf : Buffer) : Outcome CString :=
  if buf.null = true ∨ 0 ∉ buf.str.str then .fault else .ok (cut buf.str.str)

/-- `term_filter_escapes(buf->str)`. -/
def Buffer.filter (buf : Buffer) : Outcome Buffer := do
  let text ← buf.text
  let str := termFilterEscapes text ++ buf.str.str.drop text.length
  .ok { buf with str := { buf.str with str := str } }

/-- What a string that may grow up to `BUFSIZ` holds of a text. -/
def held (text : CString) : CString := cut (text.take (BUFSIZ - 1))

/-- `chan->logmark & (1 << level)`. -/
def Logchain.marks (chain : Logchain) (level : Level) : Bool :=
  chain.logmark &&& 1 <<< level.number ≠ 0

/-- The parts of what stands in front of a message on the console. -/
def joined (env : Env) (tmp1 tmp2 tmp3 tmp4 : CString) : CString :=
  lit "[" ++ env.date ++ lit "] " ++ tmp1 ++ lit "[" ++ dec env.pid ++ lit "]: " ++ tmp2 ++
    lit ":" ++ tmp3 ++ lit " " ++ tmp4 ++ lit ": "

/-- What stands in front of a message on the console (`logger.c:312-320`). -/
def consoleLine (env : Env) (m : Message) : Outcome CString := do
  let tmp1 ← termColor m.level.name m.level.color 0 80
  let tmp2 ← termColor m.file COLOR_BRWHITE 0 80
  let tmp3 ← termColor (dec m.line) COLOR_BRWHITE 0 80
  let tmp4 ← termColor m.function COLOR_BRWHITE 0 80
  .ok (joined env tmp1 tmp2 tmp3 tmp4)

/-- What stands in front of a message in a file (`logger.c:338-340`). -/
def fileLine (env : Env) (m : Message) : CString :=
  lit "[" ++ env.date ++ lit "] " ++ m.level.name ++ lit "[" ++ dec env.pid ++ lit "] " ++
    m.file ++ lit ": "

/-- What is written to `stderr` when a file cannot be written (`logger.c:343-347`). -/
def loggingError (env : Env) (filename : CString) : List CString :=
  [lit "****  Logging Error: ***********\n",
    if env.noSpace then
      lit " logging error: Out of disk space, can't log to log file " ++ filename ++ lit "\n"
    else lit "Logger Warning: Unable to write to log file '" ++ filename ++ lit "': " ++
      env.strerror ++ lit " (disabled)\n"]

/-- A text is put into the string, and written (`logger.c:327-333`, `349-355`). -/
def logText (env : Env) (fuel : Nat) (sink : Sink) (text : CString) (s : St) (buf : Buffer) :
    Outcome (St × Buffer) := do
  let (set, buf) ← buf.set env fuel BUFSIZ text
  if set then do
    let text ← buf.text
    .ok (s.write sink [text], buf)
  else .ok (s, buf)

/-- A message on the console (`logger.c:312-333`). -/
def logToConsole (env : Env) (fuel : Nat) (m : Message) (s : St) (buf : Buffer) :
    Outcome (St × Buffer) := do
  let line ← consoleLine env m
  let (_, buf) ← buf.set env fuel BUFSIZ line
  let buf ← buf.filter
  let header ← buf.text
  logText env fuel .stdout m.text (s.write .stdout [header]) buf

/-- A message in a file (`logger.c:337-356`). -/
def logToFile (env : Env) (fuel : Nat) (m : Message) (name : CString) (s : St) (buf : Buffer) :
    Outcome (St × Buffer) := do
  let (_, buf) ← buf.set env fuel BUFSIZ (fileLine env m)
  let header ← buf.text
  if !env.fprintf name && !spdStrlenZero (some header) then
    .ok (s.write .stderr (loggingError env name), buf)
  else logText env fuel (.file name) m.text (s.write (.file name) [header]) buf

/-- One turn of the loop of `spd_log` (`logger.c:304-357`). -/
def logTo (env : Env) (fuel : Nat) (m : Message) (p : St × Buffer) (chain : Logchain) :
    Outcome (St × Buffer) :=
  if chain.marks m.level && chain.type = .console then
    if m.level ≠ .verbose then logToConsole env fuel m p.1 p.2 else .ok p
  else if chain.marks m.level && chain.fptr then
    logToFile env fuel m chain.filename p.1 p.2
  else .ok p

/-- The thread has this string. -/
def St.keepLog (s : St) (env : Env) (buf : Buffer) : St :=
  { s with logBuf := Function.update s.logBuf env.thread (some buf.str) }

@[inherit_doc St.keepLog]
def St.keepVerbose (s : St) (env : Env) (buf : Buffer) : St :=
  { s with verboseBuf := Function.update s.verboseBuf env.thread (some buf.str) }

/-- `spd_verbose` (`logger.c:368-396`), with the call of `spd_log` at its end. -/
def spdVerbose (log : St → Message → Outcome St) (env : Env) (fuel : Nat) (s : St)
    (text : CString) : Outcome St :=
  match getBuffer env (s.verboseBuf env.thread) VERBOSE_BUF_INIT_SIZE with
  | none => .ok s
  | some buf => do
    let (set, buf) ← buf.set env fuel 0 (127 :: text)
    if set then do
      let buf ← buf.filter
      let text ← buf.text
      let s := s.keepVerbose env buf
      let s := s.verbosers.foldl (fun s f => s.write (.verboser f) [text]) s
      log s ⟨.verbose, lit "logger.c", 394, lit "spd_verbose", text.tail⟩
    else .ok (s.keepVerbose env buf)

/-- `spd_log` (`logger.c:269-366`); each call within a call takes one of `fuel`. -/
def spdLog (env : Env) : Nat → St → Message → Outcome St
  | 0, _, _ => .timeout
  | fuel + 1, s, m =>
    match getBuffer env (s.logBuf env.thread) LOG_BUF_INIT_SIZE with
    | none => .ok s
    | some buf =>
      if s.chains = [] then
        if m.level ≠ .verbose then do
          let (set, buf) ← buf.set env (fuel + 1) BUFSIZ m.text
          if set then do
            let buf ← buf.filter
            let text ← buf.text
            .ok ((s.write .stdout [text]).keepLog env buf)
          else .ok (s.keepLog env buf)
        else .ok (s.keepLog env buf)
      else do
        let (s, buf) ← s.chains.foldlM (logTo env (fuel + 1) m) (s, buf)
        let s := s.keepLog env buf
        if s.filesizeReloadNeed then do
          let s ← spdLog env fuel s ⟨.debug, lit "logger.c", 363, lit "spd_log",
            lit "retated logs per sigxfsz \n"⟩
          spdVerbose (spdLog env fuel) env fuel s (lit "retated log size \n")
        else .ok s

/-! ## What the logger is for -/

/-- Where a channel goes; a file that cannot be opened, and the log of the system, are nowhere. -/
inductive Kind where
  | console
  | file (name : CString)
  | nowhere
  deriving DecidableEq, Repr

/-- A channel, and the levels that are logged to it. -/
structure Channel where
  kind : Kind
  levels : Level → Bool

/-- The word that a level has in the configuration. -/
def Level.word : Level → CString
  | .debug => lit "debug"
  | .notice => lit "notice"
  | .warning => lit "warning"
  | .error => lit "error"
  | .verbose => lit "verbose"

/-- One of the words between the commas is the word of the level. -/
def named (value : CString) (level : Level) : Bool :=
  (value.splitOnP (· = ch ',')).any fun w => lower (spdStrip w) = level.word

/-- The channel that a variable is for. -/
def channelOf (sys : System) (hostname : CString) (v : Logfile) : Channel where
  kind :=
    if (lower v.name).take 7 = lit "console" then .console
    else if (lower v.name).take 6 = lit "syslog" then .nowhere
    else if sys.fopen (logPath hostname v.name) then .file (logPath hostname v.name)
    else .nowhere
  levels := named v.value

/-- The channel without a configuration. -/
def defaultChannel : Channel where
  kind := .console
  levels level := level = .notice || level = .warning || level = .error

/-- The channels, those of the last variables first, the verbosers, and what has been written. -/
structure Spec where
  channels : List Channel
  verbosers : List Nat
  out : List (Sink × CString)

inductive Op where
  | init (sys : System) (cfg : Option LoggerConf) (calloc : Bool)
  | close
  /-- The signal `SIGXFSZ`. -/
  | sigxfsz
  | log (env : Env) (m : Message)
  | verbose (env : Env) (text : CString)
  | registerVerbose (f : Nat)
  | unregisterVerbose (f : Nat)

/-- A field in colour, with room for 79 bytes. -/
def field (text : CString) (color : Nat) : CString := (colored text color 0).take 79

/-- What is to stand in front of a message on the console, before it is filtered. -/
def headerLine (env : Env) (m : Message) : CString :=
  joined env (field m.level.name m.level.color) (field m.file COLOR_BRWHITE)
    (field (dec m.line) COLOR_BRWHITE) (field m.function COLOR_BRWHITE)

/-- What is to stand in front of a message on the console. -/
def header (env : Env) (m : Message) : CString := termFilterEscapes (held (headerLine env m))

/-- What a message writes to a channel. The console is for the levels other than that of verbose
    messages, and it is given no escapes but those that the filter lets pass. -/
def Channel.outputs (env : Env) (m : Message) (channel : Channel) : List (Sink × CString) :=
  if channel.levels m.level then
    match channel.kind with
    | .console =>
      if m.level ≠ .verbose then
        [(.stdout, header env m), (.stdout, termFilterEscapes (held m.text))]
      else []
    | .file name =>
      if env.fprintf name then
        [(.file name, held (fileLine env m)), (.file name, held m.text)]
      else []
    | .nowhere => []
  else []

/-- What a message writes. -/
def Spec.outputs (t : Spec) (env : Env) (m : Message) : List (Sink × CString) :=
  if t.channels.isEmpty then
    if m.level ≠ .verbose then [(.stdout, termFilterEscapes (held m.text))] else []
  else t.channels.flatMap (Channel.outputs env m)

/-- What the verbosers are given. -/
def spoken (text : CString) : CString := termFilterEscapes (127 :: cut text)

/-- The message that a text for the verbosers becomes. -/
def verboseMessage (text : CString) : Message :=
  ⟨.verbose, lit "logger.c", 394, lit "spd_verbose", (spoken text).tail⟩

/-- What a text for the verbosers writes. -/
def Spec.verboseOutputs (t : Spec) (env : Env) (text : CString) : List (Sink × CString) :=
  t.verbosers.map (Sink.verboser ·, spoken text) ++ t.outputs env (verboseMessage text)

def Spec.step (t : Spec) : Op → Spec
  | .init sys (some conf) _ => { t with
      channels := ((conf.logfiles.filter fun v => !v.name.isEmpty && v.calloc).map
        (channelOf sys (hostnameOf sys conf))).reverse }
  | .init _ none calloc => { t with channels := if calloc then [defaultChannel] else [] }
  | .close => { t with channels := t.channels.map fun channel =>
      match channel.kind with
      | .file _ => { channel with kind := .nowhere }
      | _ => channel }
  | .sigxfsz => t
  | .log env m => { t with out := t.out ++ t.outputs env m }
  | .verbose env text => { t with out := t.out ++ t.verboseOutputs env text }
  | .registerVerbose f => { t with verbosers := f :: t.verbosers }
  | .unregisterVerbose f => { t with verbosers := t.verbosers.erase f }

/-- The program, and what it is for beside it. -/
structure Sys where
  con : St
  spec : Spec

def St.step (fuel : Nat) (s : St) : Op → Outcome St
  | .init sys cfg calloc => .ok (initLogger sys cfg calloc s)
  | .close => .ok (closeLogger s)
  | .sigxfsz => .ok { s with filesizeReloadNeed := true }
  | .log env m => spdLog env fuel s m
  | .verbose env text => spdVerbose (spdLog env fuel) env fuel s text
  | .registerVerbose f => .ok { s with verbosers := f :: s.verbosers }
  | .unregisterVerbose f => .ok { s with verbosers := s.verbosers.erase f }

def step (fuel : Nat) (σ : Sys) (o : Op) : Outcome Sys := do
  let con ← σ.con.step fuel o
  .ok ⟨con, σ.spec.step o⟩

/-- The kind of channel that a chain is. -/
def Logchain.kind (chain : Logchain) : Kind :=
  if chain.type = .console then .console
  else if chain.fptr then .file chain.filename
  else .nowhere

/-- A chain is a channel: its mask has the bits of its levels. -/
structure Matches (chain : Logchain) (channel : Channel) : Prop where
  kind : chain.kind = channel.kind
  levels : ∀ level, chain.marks level = channel.levels level

/-- The files of chains. -/
def files (chains : List Logchain) : List CString :=
  (chains.filter Logchain.fptr).map Logchain.filename

/-- What has been written to `stdout`. -/
def stdoutText (out : List (Sink × CString)) : CString :=
  (out.filter (·.1 = .stdout)).flatMap Prod.snd

/-- The chains are the channels, and a file is open exactly for those that go to one; the strings
    of the threads have room for what they hold; what is written is what is to be, and no terminal
    is given commands by it, but those that the filter lets pass. -/
structure Refines (σ : Sys) : Prop where
  chains : List.Forall₂ Matches σ.con.chains σ.spec.channels
  verbosers : σ.con.verbosers = σ.spec.verbosers
  out : σ.con.out.filter (·.1 ≠ .stderr) = σ.spec.out
  handles : σ.con.handles.Perm (files σ.con.chains)
  logBuf : ∀ i, ∀ d ∈ σ.con.logBuf i, d.len ≤ d.str.length
  verboseBuf : ∀ i, ∀ d ∈ σ.con.verboseBuf i, d.len ≤ d.str.length
  terminal : ∀ pen, Harmless ((Term.start pen).feed (stdoutText σ.con.out))

/-- What a call may find: the helper, which ends without a `return`, seems to return neither of
    its two results, `strftime` has room for 255 bytes, and the id of a process is an `int`. -/
structure Usual (env : Env) : Prop where
  failed : env.memory.noReturn ≠ SPD_DNMCSTR_BUILD_FAILEDD
  retry : env.memory.noReturn ≠ SPD_DNMCSTR_BUILD_RETRY
  date : env.date.length ≤ 255
  pid : env.pid < 2 ^ 31

/-- How long names and texts are at most. -/
def LONGEST : Nat := 2 ^ 30

/-- The words of a configuration are strings, the signal has its handler, and names and texts are
    no longer than an `int` says. -/
def Enabled (σ : Sys) : Op → Prop
  | .init _ cfg _ => ∀ conf ∈ cfg, ∀ v ∈ conf.logfiles, NoNul v.name ∧ NoNul v.value
  | .sigxfsz => σ.con.handler = true
  | .log env m => Usual env ∧ m.file.length ≤ LONGEST ∧ m.text.length ≤ LONGEST
  | .verbose env text => Usual env ∧ text.length ≤ LONGEST
  | _ => True

/-- A text for which the string has to grow. -/
def Grows (d : SpdDynamicStr) (maxLen : Nat) (text : CString) : Prop :=
  grown d.len maxLen (text.length + 1) ≠ d.len

/-- The texts that are put into the string for a chain. -/
def Logchain.texts (env : Env) (m : Message) (chain : Logchain) : List CString :=
  if chain.marks m.level && chain.type = .console then
    if m.level ≠ .verbose then [headerLine env m, m.text] else []
  else if chain.marks m.level && chain.fptr then
    fileLine env m :: if env.fprintf chain.filename then [m.text] else []
  else []

/-- The texts that are put into the string for a message. -/
def St.texts (s : St) (env : Env) (m : Message) : List CString :=
  if s.chains = [] then if m.level ≠ .verbose then [m.text] else []
  else s.chains.flatMap (Logchain.texts env m)

/-- A message for a console that has escapes which the filter would take out. -/
def Unfiltered (t : Spec) (m : Message) : Prop :=
  m.level ≠ .verbose ∧ termFilterEscapes (held m.text) ≠ held m.text ∧
    t.channels.any (fun channel => channel.kind = .console && channel.levels m.level) = true

/-- There is no memory for the string of the thread, though something is to be written; or it is
    logged to the chains after the signal has come, which then never ends; or a message for the
    console has escapes that it should not have; or there is no memory for the string to grow. -/
def LogFails (σ : Sys) (env : Env) (m : Message) : Prop :=
  getBuffer env (σ.con.logBuf env.thread) LOG_BUF_INIT_SIZE = none ∧ σ.spec.outputs env m ≠ [] ∨
    ∃ buf ∈ getBuffer env (σ.con.logBuf env.thread) LOG_BUF_INIT_SIZE,
      σ.con.chains ≠ [] ∧ σ.con.filesizeReloadNeed = true ∨ Unfiltered σ.spec m ∨
        env.room = false ∧ ∃ text ∈ σ.con.texts env m, Grows buf.str BUFSIZ text

/-- There is no memory for the string of the thread, though something is to be written, or none
    for it to grow; or the message that the text becomes is not logged as it should be. -/
def VerboseFails (σ : Sys) (env : Env) (text : CString) : Prop :=
  getBuffer env (σ.con.verboseBuf env.thread) VERBOSE_BUF_INIT_SIZE = none ∧
      σ.spec.verboseOutputs env text ≠ [] ∨
    ∃ buf ∈ getBuffer env (σ.con.verboseBuf env.thread) VERBOSE_BUF_INIT_SIZE,
      env.room = false ∧ Grows buf.str 0 (127 :: text) ∨ LogFails σ env (verboseMessage text)

/-- The default settings are used; or files are open when the chains are made anew; or a message
    is not logged as it should be. -/
def Fails (σ : Sys) : Op → Prop
  | .init _ cfg calloc => cfg.isNone ∧ calloc = true ∨ σ.con.handles ≠ []
  | .log env m => LogFails σ env m
  | .verbose env text => VerboseFails σ env text
  | _ => False

instance (env : Env) : Decidable (Usual env) :=
  decidable_of_iff (env.memory.noReturn ≠ SPD_DNMCSTR_BUILD_FAILEDD ∧
      env.memory.noReturn ≠ SPD_DNMCSTR_BUILD_RETRY ∧ env.date.length ≤ 255 ∧ env.pid < 2 ^ 31)
    ⟨fun h => ⟨h.1, h.2.1, h.2.2.1, h.2.2.2⟩, fun h => ⟨h.failed, h.retry, h.date, h.pid⟩⟩

instance (σ : Sys) : (o : Op) → Decidable (Enabled σ o)
  | .init _ none _ => isTrue (by simp [Enabled])
  | .init _ (some conf) _ =>
    decidable_of_iff (∀ v ∈ conf.logfiles, NoNul v.name ∧ NoNul v.value) (by simp [Enabled])
  | .sigxfsz => inferInstanceAs (Decidable (_ = _))
  | .log _ _ => inferInstanceAs (Decidable (_ ∧ _ ∧ _))
  | .verbose _ _ => inferInstanceAs (Decidable (_ ∧ _))
  | .close | .registerVerbose _ | .unregisterVerbose _ => isTrue trivial

instance (d : SpdDynamicStr) (maxLen : Nat) (text : CString) : Decidable (Grows d maxLen text) :=
  inferInstanceAs (Decidable (_ ≠ _))

instance (t : Spec) (m : Message) : Decidable (Unfiltered t m) :=
  inferInstanceAs (Decidable (_ ∧ _ ∧ _))

instance (σ : Sys) (env : Env) (m : Message) : Decidable (LogFails σ env m) :=
  inferInstanceAs (Decidable (_ ∨ ∃ buf ∈ getBuffer env (σ.con.logBuf env.thread)
    LOG_BUF_INIT_SIZE, _ ∨ _ ∨ env.room = false ∧ ∃ text ∈ σ.con.texts env m,
      Grows buf.str BUFSIZ text))

instance (σ : Sys) (env : Env) (text : CString) : Decidable (VerboseFails σ env text) :=
  inferInstanceAs (Decidable (_ ∨ ∃ buf ∈ getBuffer env (σ.con.verboseBuf env.thread)
    VERBOSE_BUF_INIT_SIZE, env.room = false ∧ Grows buf.str 0 (127 :: text) ∨ _))

instance (σ : Sys) : (o : Op) → Decidable (Fails σ o)
  | .init _ _ _ => inferInstanceAs (Decidable (_ ∨ _))
  | .log _ _ => inferInstanceAs (Decidable (LogFails _ _ _))
  | .verbose _ _ => inferInstanceAs (Decidable (VerboseFails _ _ _))
  | .close | .sigxfsz | .registerVerbose _ | .unregisterVerbose _ => isFalse id

/-- A string with room for its length, which is at most `longest`. -/
structure Sound (longest : Nat) (d : SpdDynamicStr) : Prop where
  pos : 0 < d.len
  exact : d.str.length = d.len
  le : d.len ≤ longest

/-- What holds in every state of a run without failures. -/
structure Inv (σ : Sys) : Prop where
  chains : List.Forall₂ Matches σ.con.chains σ.spec.channels
  verbosers : σ.con.verbosers = σ.spec.verbosers
  out : σ.con.out.filter (·.1 ≠ .stderr) = σ.spec.out
  handles : σ.con.handles.Perm (files σ.con.chains)
  logBuf : ∀ i, ∀ d ∈ σ.con.logBuf i, Sound BUFSIZ d
  verboseBuf : ∀ i, ∀ d ∈ σ.con.verboseBuf i, Sound (2 ^ 31) d
  filtered : ∀ w ∈ σ.spec.out, w.1 = .stdout → termFilterEscapes w.2 = w.2

end Spider.Logger
