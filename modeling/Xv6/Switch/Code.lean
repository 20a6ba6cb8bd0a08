import Xv6.Switch.Machine

/-!
# The code of the kernels

The functions of the kernel as programs over acts: which spinlocks they acquire
and release in which order, where they sleep, yield and exit, and what they do to
the process table.  The definitions follow the source file by file.  A condition of
the source is a choice, a loop runs any number of times, and what concerns neither
locks nor the process table is left out.  A call of `panic` is a choice not to go
on, and is written `stop` only where nothing follows it.  `cons.locking` and
`kmem.use_lock` are 1 after the boot.

The two kernels differ in `scheduler`, and the priority kernel has `custmpro`.
-/

namespace Xv6.Switch

open Typestate

def acquire (l : Spinlock) : Prog Act := .act (.acquire l)

def release (l : Spinlock) : Prog Act := .act (.release l)

/-- `if(…) { … }` -/
def may (body : List (Prog Act)) : Prog Act := .choice (block body) .skip

def loop (body : List (Prog Act)) : Prog Act := .loop (block body)

def function (body : List (Prog Act)) : Prog Act := .call (block body)

/-! ## `kalloc.c` -/

def kfree : Prog Act := function [acquire .kmem, release .kmem]

def kalloc : Prog Act := function [acquire .kmem, release .kmem]

/-! ## `proc.c`: sleeping and waking up -/

def wakeup1 : Prog Act := loop [.act .wakeup]

def wakeup : Prog Act := function [acquire .ptable, wakeup1, release .ptable]

def sleep (killable : Bool) (lk : Spinlock) : Prog Act :=
  if lk = .ptable then
    function [.act (.setState .sleeping killable), .act .sched]
  else
    function [acquire .ptable, release lk, .act (.setState .sleeping killable), .act .sched,
      release .ptable, acquire lk]

def yield : Prog Act :=
  function [acquire .ptable, .act (.setState .runnable false), .act .sched, release .ptable]

/-! ## `console.c` -/

def cprintf : Prog Act := function [acquire .cons, release .cons]

def procdump : Prog Act := function [loop [cprintf, loop [cprintf], cprintf]]

def consoleintr : Prog Act :=
  function [acquire .cons, loop [may [wakeup]], release .cons, may [procdump]]

/-! ## `sleeplock.c` -/

def acquiresleep : Prog Act :=
  .pick fun i => function [acquire (.sleeplock i), loop [sleep false (.sleeplock i)],
    release (.sleeplock i)]

def releasesleep : Prog Act :=
  .pick fun i => function [acquire (.sleeplock i), wakeup, release (.sleeplock i)]

def holdingsleep : Prog Act :=
  .pick fun i => function [acquire (.sleeplock i), release (.sleeplock i)]

/-! ## `ide.c` -/

def ideintr : Prog Act :=
  function [acquire .ide, may [release .ide, .ret], wakeup, release .ide]

def iderw : Prog Act :=
  function [holdingsleep, acquire .ide, loop [sleep false .ide], release .ide]

/-! ## `bio.c` -/

def bget : Prog Act :=
  function [acquire .bcache, may [release .bcache, acquiresleep, .ret],
    may [release .bcache, acquiresleep, .ret], .stop]

def bread : Prog Act := function [bget, may [iderw]]

def bwrite : Prog Act := function [holdingsleep, iderw]

def brelse : Prog Act :=
  function [holdingsleep, releasesleep, acquire .bcache, release .bcache]

/-! ## `log.c` -/

def installTrans : Prog Act := function [loop [bread, bread, bwrite, brelse, brelse]]

def readHead : Prog Act := function [bread, brelse]

def writeHead : Prog Act := function [bread, bwrite, brelse]

def recoverFromLog : Prog Act := function [readHead, installTrans, writeHead]

def beginOp : Prog Act := function [acquire .log, loop [sleep false .log], release .log]

def writeLog : Prog Act := function [loop [bread, bread, bwrite, brelse, brelse]]

def commit : Prog Act := function [may [writeLog, writeHead, installTrans, writeHead]]

def endOp : Prog Act :=
  function [acquire .log, may [wakeup], release .log,
    may [commit, acquire .log, wakeup, release .log]]

def logWrite : Prog Act := function [acquire .log, release .log]

/-! ## `fs.c` -/

def readsb : Prog Act := function [bread, brelse]

def initlog : Prog Act := function [readsb, recoverFromLog]

def bzero : Prog Act := function [bread, logWrite, brelse]

def balloc : Prog Act :=
  function [loop [bread, may [logWrite, brelse, bzero, .ret], brelse], .stop]

def bfree : Prog Act := function [bread, logWrite, brelse]

def iinit : Prog Act := function [readsb, cprintf]

def iget : Prog Act :=
  function [acquire .icache, may [release .icache, .ret], release .icache]

def ialloc : Prog Act :=
  function [loop [bread, may [logWrite, brelse, iget, .ret], brelse], .stop]

def iupdate : Prog Act := function [bread, logWrite, brelse]

def idup : Prog Act := function [acquire .icache, release .icache]

def ilock : Prog Act := function [acquiresleep, may [bread, brelse]]

def iunlock : Prog Act := function [holdingsleep, releasesleep]

def itrunc : Prog Act :=
  function [loop [may [bfree]], may [bread, loop [may [bfree]], brelse, bfree], iupdate]

def iput : Prog Act :=
  function [acquiresleep,
    may [acquire .icache, release .icache, may [itrunc, iupdate]],
    releasesleep, acquire .icache, release .icache]

def iunlockput : Prog Act := function [iunlock, iput]

def bmap : Prog Act :=
  function [may [may [balloc], .ret], may [balloc], bread, may [balloc, logWrite], brelse]

/-- `devsw[CONSOLE].read`, in `console.c` -/
def consoleread : Prog Act :=
  function [iunlock, acquire .cons,
    loop [loop [.choice (block [release .cons, ilock, .ret]) (.act .notKilled),
      sleep true .cons]],
    release .cons, ilock]

/-- `devsw[CONSOLE].write`, in `console.c` -/
def consolewrite : Prog Act := function [iunlock, acquire .cons, release .cons, ilock]

def readi : Prog Act :=
  function [may [may [consoleread], .ret], may [.ret], loop [bmap, bread, brelse]]

def writei : Prog Act :=
  function [may [may [consolewrite], .ret], may [.ret], loop [bmap, bread, logWrite, brelse],
    may [iupdate]]

def dirlookup : Prog Act := function [loop [readi, may [iget, .ret]]]

def dirlink : Prog Act := function [dirlookup, may [iput, .ret], loop [readi], writei]

def namex : Prog Act :=
  function [.choice iget idup,
    loop [ilock, may [iunlockput, .ret], may [iunlock, .ret],
      dirlookup, may [iunlockput, .ret], iunlockput],
    may [iput]]

def namei : Prog Act := function [namex]

def nameiparent : Prog Act := function [namex]

/-! ## `vm.c` -/

def walkpgdir : Prog Act := function [may [kalloc]]

def mappages : Prog Act := function [loop [walkpgdir, may [.ret]]]

def deallocuvm : Prog Act := function [may [.ret], loop [walkpgdir, may [kfree]]]

def freevm : Prog Act := function [deallocuvm, loop [may [kfree]], kfree]

def setupkvm : Prog Act :=
  function [kalloc, may [.ret], loop [mappages, may [freevm, .ret]]]

def loaduvm : Prog Act := function [loop [walkpgdir, readi, may [.ret]]]

def allocuvm : Prog Act :=
  function [may [.ret],
    loop [kalloc, may [cprintf, deallocuvm, .ret], mappages,
      may [cprintf, deallocuvm, kfree, .ret]]]

def copyuvm : Prog Act :=
  function [setupkvm, may [.ret],
    loop [walkpgdir, kalloc, may [freevm, .ret], mappages, may [kfree, freevm, .ret]]]

/-! ## `pipe.c` -/

def pipeclose : Prog Act :=
  .pick fun i => function [acquire (.pipe i), wakeup,
    .choice (block [release (.pipe i), kfree]) (release (.pipe i))]

def pipewrite : Prog Act :=
  .pick fun i => function [acquire (.pipe i),
    loop [loop [.choice (block [release (.pipe i), .ret]) (.act .notKilled), wakeup,
      sleep true (.pipe i)]],
    wakeup, release (.pipe i)]

def piperead : Prog Act :=
  .pick fun i => function [acquire (.pipe i),
    loop [.choice (block [release (.pipe i), .ret]) (.act .notKilled), sleep true (.pipe i)],
    wakeup, release (.pipe i)]

/-! ## `file.c` -/

def filealloc : Prog Act :=
  function [acquire .ftable, may [release .ftable, .ret], release .ftable]

def filedup : Prog Act := function [acquire .ftable, release .ftable]

def fileclose : Prog Act :=
  function [acquire .ftable, may [release .ftable, .ret], release .ftable,
    .choice pipeclose (may [beginOp, iput, endOp])]

def filestat : Prog Act := function [may [ilock, iunlock]]

def fileread : Prog Act :=
  function [may [.ret], may [piperead, .ret], may [ilock, readi, iunlock, .ret], .stop]

def filewrite : Prog Act :=
  function [may [.ret], may [pipewrite, .ret],
    may [loop [beginOp, ilock, writei, iunlock, endOp], .ret], .stop]

def pipealloc : Prog Act :=
  let bad := [may [kfree], may [fileclose], may [fileclose], .ret]
  function [filealloc, may bad, filealloc, may bad, kalloc, may bad]

/-! ## `exec.c` -/

def exec : Prog Act :=
  let bad := [may [freevm], may [iunlockput, endOp], .ret]
  function [beginOp, namei, may [endOp, cprintf, .ret], ilock,
    readi, may bad, may bad, setupkvm, may bad,
    loop [readi, may bad, may [allocuvm, may bad, may bad, loaduvm, may bad]],
    iunlockput, endOp, allocuvm, may bad, loop [may bad], may bad, freevm]

/-! ## `proc.c`: the life of a process -/

def allocproc : Prog Act :=
  function [acquire .ptable, may [release .ptable, .ret], .act .allocproc, release .ptable,
    kalloc, may [.act .discard, .ret]]

def growproc : Prog Act :=
  function [.choice (block [allocuvm, may [.ret]]) (may [deallocuvm, may [.ret]])]

def fork : Prog Act :=
  function [allocproc, may [.ret], copyuvm, may [kfree, .act .discard, .ret], loop [may [filedup]],
    idup, acquire .ptable, .act .setRunnable, release .ptable]

/-- In the priority kernel. -/
def custmpro : Prog Act :=
  function [allocproc, may [.ret], copyuvm, may [kfree, .act .discard, .ret], loop [may [filedup]],
    idup, acquire .ptable, .act .setRunnable, release .ptable]

def exit : Prog Act :=
  function [loop [may [fileclose]], beginOp, iput, endOp, acquire .ptable, wakeup1,
    loop [may [may [wakeup1]]], .act (.setState .zombie false), .act .sched, .stop]

def wait : Prog Act :=
  function [acquire .ptable,
    loop [may [kfree, freevm, .act .reap, release .ptable, .ret],
      .choice (block [release .ptable, .ret]) (.act .notKilled), sleep true .ptable],
    .stop]

def procstat : Prog Act :=
  function [acquire .ptable,
    loop [may [kfree, freevm, .act .reap, release .ptable, .ret],
      .choice (block [release .ptable, .ret]) (.act .notKilled), sleep true .ptable],
    .stop]

def kill : Prog Act :=
  function [acquire .ptable, may [.act .kill, release .ptable, .ret], release .ptable]

def ps : Prog Act :=
  function [.act .sti, acquire .ptable, cprintf, loop [may [cprintf]], release .ptable]

def forkret : Prog Act := function [release .ptable, may [iinit, initlog]]

/-- The loop over the process table runs one process in the FCFS kernel, and any
number of them in the priority kernel. -/
def scheduler : Kernel → Prog Act
  | .fcfs => loop [.act .sti, acquire .ptable, may [.act .dispatch, .act .undispatch],
      release .ptable]
  | .priority => loop [.act .sti, acquire .ptable, loop [may [.act .dispatch, .act .undispatch]],
      release .ptable]

/-! ## `sysproc.c` and `sysfile.c` -/

def sysProcstat : Prog Act := function [may [.ret], procstat]

def sysKill : Prog Act := function [may [.ret], kill]

def sysSbrk : Prog Act := function [may [.ret], growproc]

def sysSleep : Prog Act :=
  function [may [.ret], acquire .tickslock,
    loop [.choice (block [release .tickslock, .ret]) (.act .notKilled), sleep true .tickslock],
    release .tickslock]

def sysUptime : Prog Act := function [acquire .tickslock, release .tickslock]

def sysCustmpro : Prog Act := function [may [.ret], custmpro]

def sysDup : Prog Act := function [may [.ret], filedup]

def sysRead : Prog Act := function [may [.ret], fileread]

def sysWrite : Prog Act := function [may [.ret], filewrite]

def sysClose : Prog Act := function [may [.ret], fileclose]

def sysFstat : Prog Act := function [may [.ret], filestat]

def sysLink : Prog Act :=
  let bad := [ilock, iupdate, iunlockput, endOp, .ret]
  function [may [.ret], beginOp, namei, may [endOp, .ret], ilock, may [iunlockput, endOp, .ret],
    iupdate, iunlock, nameiparent, may bad, ilock, may [iunlockput, block bad],
    dirlink, may [iunlockput, block bad], iunlockput, iput, endOp]

def isdirempty : Prog Act := function [loop [readi, may [.ret]]]

def sysUnlink : Prog Act :=
  let bad := [iunlockput, endOp, .ret]
  function [may [.ret], beginOp, nameiparent, may [endOp, .ret], ilock, may bad,
    dirlookup, may bad, ilock, may [isdirempty, may [iunlockput, block bad]], writei,
    may [iupdate], iunlockput, iupdate, iunlockput, endOp]

def create : Prog Act :=
  function [nameiparent, may [.ret], ilock, dirlookup,
    may [iunlockput, ilock, may [.ret], iunlockput, .ret],
    ialloc, ilock, iupdate, may [iupdate, dirlink, dirlink], dirlink, iunlockput]

def sysOpen : Prog Act :=
  function [may [.ret], beginOp,
    .choice (block [create, may [endOp, .ret]])
      (block [namei, may [endOp, .ret], ilock, may [iunlockput, endOp, .ret]]),
    filealloc, may [may [fileclose], iunlockput, endOp, .ret], iunlock, endOp]

def sysMkdir : Prog Act := function [beginOp, may [endOp, .ret], create, may [endOp, .ret],
  iunlockput, endOp]

def sysMknod : Prog Act := function [beginOp, may [endOp, .ret], create, may [endOp, .ret],
  iunlockput, endOp]

def sysChdir : Prog Act :=
  function [beginOp, may [endOp, .ret], namei, may [endOp, .ret], ilock,
    may [iunlockput, endOp, .ret], iunlock, iput, endOp]

def sysExec : Prog Act := function [may [.ret], exec]

def sysPipe : Prog Act :=
  function [may [.ret], pipealloc, may [.ret], may [fileclose, fileclose, .ret]]

/-! ## `syscall.c` and `trap.c` -/

/-- `syscalls[1..]`; those without locks are `skip`. -/
def syscalls : Kernel → List (Prog Act)
  | .fcfs => [fork, exit, wait, sysPipe, sysRead, sysKill, sysExec, sysFstat, sysChdir, sysDup,
      .skip, sysSbrk, sysSleep, sysUptime, sysOpen, sysWrite, sysMknod, sysUnlink, sysLink,
      sysMkdir, sysClose, ps, sysProcstat]
  | .priority => [fork, exit, wait, sysPipe, sysRead, sysKill, sysExec, sysFstat, sysChdir, sysDup,
      .skip, sysSbrk, sysSleep, sysUptime, sysOpen, sysWrite, sysMknod, sysUnlink, sysLink,
      sysMkdir, sysClose, ps, sysProcstat, sysCustmpro]

def syscall (kernel : Kernel) : Prog Act :=
  function [.pick fun i => ((syscalls kernel)[i]?).getD cprintf]

/-- `trap` for `T_SYSCALL` -/
def trapSyscall (kernel : Kernel) : Prog Act :=
  function [may [exit], syscall kernel, may [exit]]

/-- `T_IRQ0 + IRQ_TIMER` -/
def timer : Prog Act := may [acquire .tickslock, wakeup, release .tickslock]

/-- `trap` for anything else.  The keyboard and the serial line call `consoleintr`. -/
def trap (process user : Bool) : Prog Act :=
  function [
    .choice timer <| .choice ideintr <| .choice consoleintr <| .choice .skip <| .choice cprintf <|
      if process && user then block [cprintf, .act .setKilled] else block [cprintf, .stop],
    if process && user then may [exit] else .skip,
    if process then may [yield] else .skip,
    if process && user then may [exit] else .skip]

def kernelCode (kernel : Kernel) : KernelCode where
  scheduler := scheduler kernel
  forkret := forkret
  interrupt := trap
  syscall := trapSyscall kernel

end Xv6.Switch
