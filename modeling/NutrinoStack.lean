import NutrinoStack.CoreLoop
import NutrinoStack.Acknowledgements
import NutrinoStack.Deliveries
import NutrinoStack.Replies
import NutrinoStack.Ordering
import NutrinoStack.Waiting
import NutrinoStack.Handlings
import NutrinoStack.ByteChannel
import NutrinoStack.ApplicationHandler
import NutrinoStack.FailedReads
import NutrinoStack.UtilityRefinement
import NutrinoStack.UtilityQueueManager
import NutrinoStack.Exhaustion
import NutrinoStack.Disclosure
import NutrinoStack.Menu
import NutrinoStack.Linearizability
import NutrinoStack.StackCompletion
import NutrinoStack.StackRestarts
import NutrinoStack.UtilityProcess
