import ArmOs.Lib.Chain
import ArmOs.Lib.Run
import ArmOs.Kernel.System
import ArmOs.Sched.Theorems
import ArmOs.Files.Theorems
import ArmOs.Keyboard.Theorems
import ArmOs.Pages.Theorems
import ArmOs.Fat.Theorems
import ArmOs.Calls.Theorems
import ArmOs.Lib.Ownership
import ArmOs.Fat.Lemmas.Load
import ArmOs.Exec.Theorems
import ArmOs.Dir.Theorems
import ArmOs.Copy.Theorems
import ArmOs.Paging.Theorems
import ArmOs.Sleep.Theorems
import ArmOs.Lists.Theorems
import ArmOs.Heap.Theorems
import ArmOs.Lib.Numeral
import ArmOs.Print.Theorems
import ArmOs.Console.Theorems
import ArmOs.Reads.Theorems
import ArmOs.Accesses.Theorems
import ArmOs.Context.Theorems
import ArmOs.Capacity.Theorems
import ArmOs.Progress.Theorems
